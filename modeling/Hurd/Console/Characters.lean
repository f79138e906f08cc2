import Hurd.Console.Output

/-!
# What an output character does

Every character keeps the bounds of the display, if a scrolling region is not set from a negative
number; and it reports what it changes when the calls that it makes do.
-/

namespace Hurd.Console

open Option

variable {z : Size} {d d' : Display}

namespace Display

variable (hz : z.cells ≤ 2 ^ 31)

include hz

omit hz in
theorem putChar_does {line idx : Int} (hline : 0 ≤ line ∧ line < z.lines) (n : Nat) {i : Int}
    (chr : Nat) (h : Bounded z d) (hidx : idx + i = line * z.width + d.col) :
    ∃ d' i', putChar z idx n i chr d = some (d', i') ∧ Bounded z d' ∧ d'.state = d.state ∧
      i ≤ i' ∧ idx + i' ≤ line * z.width + z.width ∧
      Shown.Edited (fun j => idx + i ≤ j ∧ j < idx + i') d.shown d'.shown := by
  have hw := z.width_pos
  have hcol := h.col
  induction n generalizing i chr d with
  | zero => exact ⟨d, i, rfl, h, rfl, Int.le_refl i, by omega, .refl _ _⟩
  | succ n ih =>
    rw [putChar]
    split
    · exact ⟨d, i, rfl, h, rfl, Int.le_refl i, by omega, .refl _ _⟩
    · have hin : 0 ≤ idx + i ∧ idx + i < z.cells := by
        have hmul := row_mul (by omega : 0 ≤ z.width) hline.1 hline.2
        have hcells : z.lines * z.width = z.cells := Int.mul_comm _ _
        omega
      obtain ⟨s, hs, hedit⟩ := Shown.store_edited hin ⟨chr, d.attr⟩ d.shown
      have hnext : u32 (d.col + 1) = d.col + 1 := by
        have := z.width_lt
        unfold u32
        omega
      have hb : Bounded z { d with shown := s, col := u32 (d.col + 1) } :=
        (h.shown s).withCol (by omega)
      obtain ⟨d', i', hrun, hb', hstate, hle, hlast, hedit'⟩ :=
        ih (i := i + 1) (chr ||| 0x40000000) hb (by dsimp only; omega) hb.col
      refine ⟨d', i', ?_, hb', hstate, by omega, hlast, ?_⟩
      · rw [hs, bind_some]
        exact hrun
      · exact (hedit.mono fun j hj => by omega).trans (hedit'.mono fun j hj => by omega)

theorem outputAt_does (width : Int) (hwidth : 0 ≤ width ∧ width < 2 ^ 31) (chr : Nat)
    (h : Bounded z d) (hcol : d.col < z.width) : Does z True d (outputAt z width chr d) := by
  have hw := z.width_pos
  have hsize := Size.size_eq hz
  have hlines := z.lines_pos
  have hcells := z.lines_le_cells
  have hinsert : Does z True d (d.editIf z (d.insertEdit z width)) := by
    have hwithin : Region.Within z ⟨d.col, d.row, u32 (z.width - 1), d.row⟩ := by
      have hrow := h.row
      have hcol' := h.col
      constructor <;> simp only [Size.u32_width] <;> omega
    have hcall : ∀ e, d.insertEdit z width = some e →
        e = .shiftRight ⟨d.col, d.row, u32 (z.width - 1), d.row⟩ (u64 width) := fun e he =>
      (some.inj (ite_none_right_eq_some.mp he).2).symm
    refine (editIf_does hz (fun e he => ?_) h).imp fun _ e he => ?_
    · rw [hcall e he]
      exact hwithin
    · rw [hcall e he]
      apply hwithin.shiftReports hz d.curLine rfl
      · rw [Size.u32_width]
        dsimp only
        omega
      · rw [Size.u32_width]
        dsimp only
        omega
      · unfold u64
        omega
  obtain ⟨d₁, hd₁, hb₁, hstate₁, hn₁⟩ := hinsert
  have hsame : d₁.col = d.col := editIf_col hd₁
  have hmod := Int.emod_nonneg (u32 (d.curLine + d.row)) (by omega : z.lines ≠ 0)
  have hlt := Int.emod_lt_of_pos (u32 (d.curLine + d.row)) (by omega : 0 < z.lines)
  rw [outputAt, hd₁, bind_some]
  dsimp only
  generalize u32 (d.curLine + d.row) % z.lines = m at *
  have hline : u32 (i32 m) = m := by
    unfold u32 i32
    split_ifs <;> omega
  have hmul := row_mul (by omega : 0 ≤ z.width) hmod hlt
  have hring : z.lines * z.width = z.cells := Int.mul_comm _ _
  have hcol₀ := h.col
  have hidx : i32 (m * z.width + d.col) = m * z.width + d.col := by
    unfold i32
    omega
  rw [hline, hidx]
  obtain ⟨d₂, i, hput, hb₂, hstate₂, hi, hlast, hedit⟩ :=
    putChar_does ⟨hmod, hlt⟩ width.toNat (if d₁.altchar = true then altcharToUcs4 chr else chr) hb₁
      (by omega : m * z.width + d.col + 0 = m * z.width + d₁.col)
  rw [hput, bind_some]
  dsimp only
  have hfinal : ∀ s, Shown.Notifies z d₁.shown s →
      Does z True d (some { d₂ with shown := s }) := fun s hs =>
    ⟨_, rfl, hb₂.shown s, hstate₂.trans hstate₁, fun _ => (hn₁ trivial).trans hs⟩
  have hcol₂ := hb₂.col
  by_cases hpos : 0 < i
  · rw [if_pos hpos, if_neg (by dsimp only; omega)]
    apply hfinal
    apply hedit.notifies (by omega) ⟨by omega, by omega⟩ ⟨by omega, by omega⟩
    intro j hj
    refine ⟨⟨by omega, by omega⟩, ?_⟩
    rw [CyclicMem, if_pos (by omega)]
    omega
  · rw [if_neg hpos, if_neg (by omega)]
    have hnone : Shown.Notifies z d₁.shown d₂.shown := by
      apply hedit.still
      intro j hj
      omega
    exact hfinal d₂.shown hnone

/-- The characters that control the display outside of escape sequences -/
def controlChars : List Nat := [0x0d, 0x0a, 0x08, 0x09, 0x1b, 0x00, 0x07]

/-- What has to be so that a character outside of escape sequences reports what it changes. -/
structure NormalReports (z : Size) (d : Display) (chr : Nat) : Prop where
  linefeed : chr = 0x0a → LinefeedReports z d
  tab : chr = 0x09 → TabReports z d
  wrap : chr ∉ controlChars → z.width ≤ d.col → LinefeedReports z { d with col := 0 }

theorem wrap_does (h : Bounded z d) :
    Does z (z.width ≤ d.col → LinefeedReports z { d with col := 0 }) d (d.wrap z) := by
  have hw := z.width_pos
  unfold wrap
  split
  · rename_i hend
    exact ((linefeed_does hz (h.withCol ⟨Int.le_refl 0, by omega⟩)).of_same rfl rfl).imp
      fun hreports => hreports hend
  · exact (Does.of_some h rfl rfl).imp fun _ => trivial

omit hz in
theorem wrap_col (h : Bounded z d) (hd : d.wrap z = some d') : d'.col < z.width := by
  have hw := z.width_pos
  unfold wrap at hd
  split at hd
  · rw [linefeed_col hd]
    dsimp only
    omega
  · rw [← some.inj hd]
    have hcol := h.col
    omega

theorem outputChar_does {wcwidth : Nat → Int} (hint : ∀ c, wcwidth c < 2 ^ 31) (chr : Nat)
    (h : Bounded z d) :
    Does z (z.width ≤ d.col → LinefeedReports z { d with col := 0 }) d
      (outputChar z wcwidth d chr) := by
  have hwidth : 0 ≤ (if wcwidth chr < 0 then 1 else wcwidth chr) ∧
      (if wcwidth chr < 0 then 1 else wcwidth chr) < 2 ^ 31 := by
    have := hint chr
    split <;> omega
  apply ((wrap_does hz h).bind fun d' hd' hb =>
    outputAt_does hz _ hwidth chr hb (wrap_col h hd')).imp
  intro hreports
  exact ⟨hreports, fun _ _ => trivial⟩

theorem outputNormal_does {wcwidth : Nat → Int} (hint : ∀ c, wcwidth c < 2 ^ 31) (chr : Nat)
    (h : Bounded z d) :
    ∃ d', outputNormal z wcwidth d chr = some d' ∧ Bounded z d' ∧
      (d'.state = d.state ∨ d'.state = .esc) ∧
      (NormalReports z d chr → Shown.Notifies z d.shown d'.shown) := by
  have hw := z.width_pos
  have hsame : ∀ {p : Prop} {r : Option Display}, Does z p d r →
      ∃ d', r = some d' ∧ Bounded z d' ∧ (d'.state = d.state ∨ d'.state = .esc) ∧
        (p → Shown.Notifies z d.shown d'.shown) := by
    rintro p r ⟨d', hr, hb, hstate, hn⟩
    exact ⟨d', hr, hb, .inl hstate, hn⟩
  have hquiet : ∀ {d' : Display} {p : Prop}, Bounded z d' → d'.state = d.state →
      d'.shown = d.shown → ∃ d'', some d' = some d'' ∧ Bounded z d'' ∧
        (d''.state = d.state ∨ d''.state = .esc) ∧
        (p → Shown.Notifies z d.shown d''.shown) := fun hb hstate hshown =>
    hsame ((Does.of_some hb hstate hshown).imp fun _ => trivial)
  unfold outputNormal
  split
  · exact hquiet (h.withCol ⟨Int.le_refl 0, by omega⟩) rfl rfl
  · exact hsame ((linefeed_does hz h).imp fun hreports => hreports.linefeed rfl)
  · have hcol := h.col
    have hrow := h.row
    have hwidth := z.width_lt
    have hheight : z.height < 2 ^ 32 := Int.lt_of_le_of_lt z.height_le z.lines_lt
    split
    · refine hquiet (h.withCol ?_) rfl rfl
      unfold u32
      omega
    · split
      · rw [Size.u32_width]
        refine hquiet ⟨?_, ⟨by dsimp only; omega, by dsimp only; omega⟩, h.region, h.savedX,
          h.savedY, h.params, h.ints⟩ rfl rfl
        dsimp only
        unfold u32
        omega
      · exact hquiet h rfl rfl
  · exact hsame ((horizontalTab_does hz h).imp fun hreports => hreports.tab rfl)
  · exact ⟨_, rfl, ⟨h.row, h.col, h.region, h.savedX, h.savedY, h.params, h.ints⟩, .inr rfl,
      fun _ => .refl z d.shown⟩
  · exact hquiet h rfl rfl
  · exact hquiet ⟨h.row, h.col, h.region, h.savedX, h.savedY, h.params, h.ints⟩ rfl rfl
  · refine hsame ((outputChar_does hz hint chr h).imp fun hreports => hreports.wrap ?_)
    simp_all [controlChars]

/-- What has to be so that the character after an escape reports what it changes. -/
def EscReports (z : Size) (d : Display) (chr : Nat) : Prop :=
  chr = 0x45 → LinefeedReports z { d with col := 0 }

theorem outputEsc_does (chr : Nat) (h : Bounded z d) :
    ∃ d', outputEsc z d chr = some d' ∧ Bounded z d' ∧
      (d'.state = .normal ∨ d'.state = .escBracketInit) ∧
      (EscReports z d chr → Shown.Notifies z d.shown d'.shown) := by
  have hw := z.width_pos
  have hh := z.height_pos
  have hnormal : ∀ {p : Prop} {d₀ : Display} {r : Option Display}, Does z p d₀ r →
      d₀.state = .normal → d₀.shown = d.shown →
      ∃ d', r = some d' ∧ Bounded z d' ∧ (d'.state = .normal ∨ d'.state = .escBracketInit) ∧
        (p → Shown.Notifies z d.shown d'.shown) := by
    rintro p d₀ r ⟨d', hr, hb, hstate, hn⟩ hstate₀ hshown
    exact ⟨d', hr, hb, .inl (hstate.trans hstate₀), hshown ▸ hn⟩
  have hquiet : ∀ {d' : Display} {p : Prop}, Bounded z d' → d'.state = .normal →
      d'.shown = d.shown → ∃ d'', some d' = some d'' ∧ Bounded z d'' ∧
        (d''.state = .normal ∨ d''.state = .escBracketInit) ∧
        (p → Shown.Notifies z d.shown d''.shown) := fun hb hstate hshown =>
    ⟨_, rfl, hb, .inl hstate, fun _ => hshown ▸ .refl z d.shown⟩
  have hclear : ∀ {d₀ : Display}, Bounded z d₀ →
      Does z True d₀ ((d₀.edit z (.fill (wholeScreen z))).map
        fun d => { d with col := 0, row := 0 }) := by
    intro d₀ hd₀
    have hfill : Does z True d₀ (d₀.edit z (.fill (wholeScreen z))) := by
      refine (Edit.Within.does hz (e := .fill (wholeScreen z)) (wholeScreen_within z) hd₀).imp
        fun _ => ?_
      apply (wholeScreen_within z).fillReports hz
      · intro _
        simp only [wholeScreen, Size.u32_width]
        omega
      · simp only [wholeScreen, Size.u32_width]
        omega
    apply hfill.map
    · intro d' hd'
      exact ⟨⟨Int.le_refl 0, by dsimp only; omega⟩, ⟨Int.le_refl 0, by dsimp only; omega⟩, hd'.region,
        hd'.savedX, hd'.savedY, hd'.params, hd'.ints⟩
    · intro d'
      exact ⟨rfl, rfl⟩
  have hstart : Bounded z { d with state := .normal } :=
    ⟨h.row, h.col, h.region, h.savedX, h.savedY, h.params, h.ints⟩
  have hrow : 0 ≤ d.row ∧ d.row < 2 ^ 32 := by
    have := h.row
    have := z.height_le
    have := z.lines_lt
    omega
  have hcol : 0 ≤ d.col ∧ d.col < 2 ^ 32 := by
    have := h.col
    have := z.width_lt
    omega
  unfold outputEsc EscReports
  dsimp only
  split
  · exact ⟨_, rfl, ⟨h.row, h.col, h.region, h.savedX, h.savedY, h.params, h.ints⟩, .inr rfl,
      fun _ => .refl z d.shown⟩
  · refine hnormal ((hclear ?_).imp fun _ => trivial) rfl rfl
    refine ⟨h.row, h.col, ?_, h.savedX, h.savedY, h.params, h.ints⟩
    rw [Size.u32_height]
    dsimp only
    omega
  · exact hnormal ((hclear hstart).imp fun _ => trivial) rfl rfl
  · exact hnormal ((linefeed_does hz (hstart.withCol ⟨Int.le_refl 0, by omega⟩)).imp
      fun hreports => hreports rfl) rfl rfl
  · exact hquiet ⟨h.row, h.col, h.region, hcol, hrow, h.params, h.ints⟩ rfl rfl
  · exact hquiet (limitCursor_bounded hstart h.savedX h.savedY) rfl rfl
  · exact hquiet ⟨h.row, h.col, h.region, h.savedX, h.savedY, h.params, h.ints⟩ rfl rfl
  · exact hquiet hstart rfl rfl

theorem finishSequence_does (op : Nat) (h : Bounded z d) (hn : d.nparams ≤ 10)
    (hok : d.state = .escBracket → control op = some .setRegion → RegionOk z d) :
    ∃ d', finishSequence z op d = some d' ∧ Bounded z d' ∧ d'.state = .normal ∧
      ((d.state = .escBracket → ∀ c, control op = some c → c.Reports z d) →
        Shown.Notifies z d.shown d'.shown) := by
  have hend : ∀ {p q : Prop} {r : Option Display}, Does z p d r → (q → p) →
      ∃ d', r.map (fun d => { d with state := .normal }) = some d' ∧ Bounded z d' ∧
        d'.state = .normal ∧ (q → Shown.Notifies z d.shown d'.shown) := by
    rintro p q r ⟨d', rfl, hb, -, hn⟩ hqp
    exact ⟨_, rfl, ⟨hb.row, hb.col, hb.region, hb.savedX, hb.savedY, hb.params, hb.ints⟩, rfl,
      fun hq => hn (hqp hq)⟩
  unfold finishSequence
  split
  · rename_i hstate
    cases hc : control op with
    | none => exact hend (Does.of_some h rfl rfl) fun _ => trivial
    | some c =>
      refine hend (handleEscBracket_does hz h hn ?_) fun hreports => hreports hstate c rfl
      rintro rfl
      exact hok hstate hc
  · unfold handleEscBracketRightAngle
    split_ifs
    · exact hend ((handleEscBracketRightAngleHl_quiet false).eachParam h hn) fun _ => trivial
    · exact hend ((handleEscBracketRightAngleHl_quiet true).eachParam h hn) fun _ => trivial
    · exact hend (Does.of_some h rfl rfl) fun _ => trivial
  · unfold handleEscBracketQuestion
    split_ifs
    · exact hend ((handleEscBracketQuestionHl_quiet false).eachParam h hn) fun _ => trivial
    · exact hend ((handleEscBracketQuestionHl_quiet true).eachParam h hn) fun _ => trivial
    · exact hend (Does.of_some h rfl rfl) fun _ => trivial

theorem outputParam_does (chr : Nat) (h : Bounded z d) (hn : d.nparams < 10)
    (hok : d.state = .escBracket → control (chr % 256) = some .setRegion → RegionOk z d) :
    ∃ d', outputParam z d chr = some d' ∧ Bounded z d' ∧ Parsing d' ∧
      ((d.state = .escBracket → ∀ c, control (chr % 256) = some c →
          c.Reports z { d with nparams := d.nparams + 1 }) →
        Shown.Notifies z d.shown d'.shown) := by
  unfold outputParam
  split
  · have hlt : d.nparams < d.params.length := h.params ▸ hn
    let next (p : Int) : Display := { d with params := d.params.set d.nparams p }
    refine ⟨next (i32 (d.params[d.nparams] * 10 + chr - 0x30)), ?_, ?_, fun _ => hn,
      fun _ => .refl z d.shown⟩
    · rw [List.getElem?_eq_getElem hlt, map_some]
    refine ⟨h.row, h.col, h.region, h.savedX, h.savedY, ?_, ?_⟩
    · rw [List.length_set, h.params]
    · intro p hp
      rcases List.mem_or_eq_of_mem_set hp with hold | rfl
      · exact h.ints p hold
      · unfold i32
        split <;> omega
  · have hnext : Bounded z { d with nparams := d.nparams + 1 } :=
      ⟨h.row, h.col, h.region, h.savedX, h.savedY, h.params, h.ints⟩
    split
    · dsimp only
      split
      · refine ⟨_, rfl, ?_, ?_, fun _ => .refl z d.shown⟩
        · exact ⟨h.row, h.col, h.region, h.savedX, h.savedY, h.params, h.ints⟩
        · rintro (hstate | hstate | hstate) <;> cases hstate
      · rename_i hmore
        exact ⟨_, rfl, hnext, fun _ => Nat.lt_of_not_le hmore, fun _ => .refl z d.shown⟩
    · obtain ⟨d', hrun, hb, hstate, hreports⟩ := finishSequence_does hz (chr % 256) hnext hn hok
      refine ⟨d', hrun, hb, ?_, hreports⟩
      rw [Parsing, hstate]
      rintro (hs | hs | hs) <;> cases hs

/-- The display when the first character after a bracket is read -/
def cleared (d : Display) : Display :=
  { d with state := .escBracket, params := List.replicate 10 0, nparams := 0 }

theorem outputBracketInit_does (chr : Nat) (h : Bounded z d) :
    ∃ d', outputBracketInit z d chr = some d' ∧ Bounded z d' ∧ Parsing d' ∧
      ((∀ c, control (chr % 256) = some c →
          c.Reports z { d.cleared with nparams := d.cleared.nparams + 1 }) →
        Shown.Notifies z d.shown d'.shown) := by
  have hb : ∀ state, Bounded z
      { d with state := state, params := List.replicate 10 0, nparams := 0 } := by
    intro state
    refine ⟨h.row, h.col, h.region, h.savedX, h.savedY, rfl, ?_⟩
    intro p hp
    rw [List.eq_of_mem_replicate hp]
    decide
  unfold outputBracketInit
  dsimp only
  split
  · exact ⟨_, rfl, hb _, fun _ => Nat.zero_lt_succ 9, fun _ => .refl z d.shown⟩
  · split
    · exact ⟨_, rfl, hb _, fun _ => Nat.zero_lt_succ 9, fun _ => .refl z d.shown⟩
    · obtain ⟨d', hrun, hb', hparsing, hreports⟩ :=
        outputParam_does hz (d := d.cleared) chr (hb .escBracket) (Nat.zero_lt_succ 9)
          fun _ _ hp => absurd rfl hp
      exact ⟨d', hrun, hb', hparsing, fun hall => hreports fun _ => hall⟩

/-- A scrolling region is not set from a negative number by this character. -/
def Admits (z : Size) (d : Display) (chr : Nat) : Prop :=
  d.state = .escBracket → control (chr % 256) = some .setRegion → RegionOk z d

omit hz in
theorem control_setRegion {op : Nat} (h : control op = some .setRegion) : op = 0x72 := by
  unfold control at h
  split at h <;> simp_all

theorem displayOutputOne_inverted {wcwidth : Nat → Int} (chr : Nat) (h : Bounded z d)
    (hbad : ¬ Admits z d chr) :
    ∃ d', displayOutputOne z wcwidth d chr = some d' ∧ d'.bottom < d'.top := by
  unfold Admits at hbad
  push Not at hbad
  obtain ⟨hstate, hcontrol, hregion⟩ := hbad
  have hop := control_setRegion hcontrol
  have hdigit : ¬ (0x30 ≤ chr ∧ chr ≤ 0x39) := by omega
  have hsemicolon : chr ≠ 0x3b := by omega
  have hnext : Bounded z { d with nparams := d.nparams + 1 } :=
    ⟨h.row, h.col, h.region, h.savedX, h.savedY, h.params, h.ints⟩
  refine ⟨{ setScrollRegion z { d with nparams := d.nparams + 1 } with state := .normal }, ?_, ?_⟩
  · simp only [displayOutputOne, outputParam, finishSequence, handleEscBracket, hstate, hcontrol,
      if_neg hdigit, if_neg hsemicolon, map_some]
  · exact setScrollRegion_inverted hz hnext hregion

/-- The calls that a character makes report what they change. -/
structure Reports (z : Size) (d : Display) (chr : Nat) : Prop where
  normal : d.state = .normal → NormalReports z d chr
  esc : d.state = .esc → EscReports z d chr
  first : d.state = .escBracketInit → ∀ c, control (chr % 256) = some c →
    c.Reports z { d.cleared with nparams := d.cleared.nparams + 1 }
  bracket : d.state = .escBracket → ∀ c, control (chr % 256) = some c →
    c.Reports z { d with nparams := d.nparams + 1 }

theorem displayOutputOne_does {wcwidth : Nat → Int} (hint : ∀ c, wcwidth c < 2 ^ 31) (chr : Nat)
    (h : Bounded z d) (hparsing : Parsing d) (hok : Admits z d chr) :
    ∃ d', displayOutputOne z wcwidth d chr = some d' ∧ Bounded z d' ∧ Parsing d' ∧
      (Reports z d chr → Shown.Notifies z d.shown d'.shown) := by
  unfold displayOutputOne
  cases hstate : d.state with
  | normal =>
    obtain ⟨d', hrun, hb, hstate', hreports⟩ := outputNormal_does hz hint chr h
    refine ⟨d', hrun, hb, ?_, fun hr => hreports (hr.normal hstate)⟩
    rw [hstate] at hstate'
    rintro (hs | hs | hs) <;> rw [hs] at hstate' <;> simp at hstate'
  | esc =>
    obtain ⟨d', hrun, hb, hstate', hreports⟩ := outputEsc_does hz chr h
    refine ⟨d', hrun, hb, ?_, fun hr => hreports (hr.esc hstate)⟩
    rintro (hs | hs | hs) <;> rw [hs] at hstate' <;> simp at hstate'
  | escBracketInit =>
    obtain ⟨d', hrun, hb, hp, hreports⟩ := outputBracketInit_does hz chr h
    exact ⟨d', hrun, hb, hp, fun hr => hreports (hr.first hstate)⟩
  | escBracket =>
    obtain ⟨d', hrun, hb, hp, hreports⟩ :=
      outputParam_does hz chr h (hparsing (.inl hstate)) hok
    exact ⟨d', hrun, hb, hp, fun hr => hreports hr.bracket⟩
  | escBracketQuestion =>
    obtain ⟨d', hrun, hb, hp, hreports⟩ :=
      outputParam_does hz chr h (hparsing (.inr (.inl hstate))) hok
    exact ⟨d', hrun, hb, hp, fun hr => hreports hr.bracket⟩
  | escBracketRightAngle =>
    obtain ⟨d', hrun, hb, hp, hreports⟩ :=
      outputParam_does hz chr h (hparsing (.inr (.inr hstate))) hok
    exact ⟨d', hrun, hb, hp, fun hr => hreports hr.bracket⟩

end Display

end Hurd.Console
