import Hurd.Libdiskfs.Hierarchy

/-!
# Moves of directories

`diskfs_rename_dir` gives a directory a new parent, then its new name, and takes the old name away.
-/

namespace Hurd.DirOps

open Relation Option

variable {root : Nat} {linkMax : Int} {shadow : Option Nat} {fails : Call → Bool}
variable {s s' : Fs} {d n p : Nat} {x y : Name}

section Rename

variable {fdp fnp tdp fuel : Nat} {fromname toname : Name} {excl : Bool} {t : Target}

/-- What has become of the names when a directory has been moved. -/
structure Moved (s : Fs) (fdp fnp : Nat) (fromname : Name) (tdp : Nat) (toname : Name) (t : Target)
    (s' : Fs) : Prop where
  keys : s'.Keys
  isDir : s'.isDir = s.isDir
  slack : ∀ n, s'.slack n = s.slack n
  gone : s'.lookup fdp fromname = none
  new : s'.lookup tdp toname = some fnp
  up : s'.lookup fnp dotdot = some tdp
  replaced : ∀ {d x n}, t = .another d → s'.lookup d x = some n → s.lookup d x = some n
  other : ∀ {d x}, t ≠ .another d → ¬ (d = fdp ∧ x = fromname) → ¬ (d = tdp ∧ x = toname) →
    ¬ (d = fnp ∧ x = dotdot) → s'.lookup d x = s.lookup d x

/-- `diskfs_rename_dir`, when nothing fails, moves the directory. -/
theorem moved_of_reattached {s₂ s₃ : Fs} (h : TreeInv root s)
    (hfrom : fromname ≠ dot ∧ fromname ≠ dotdot) (hto : toname ≠ dot ∧ toname ≠ dotdot)
    (hdir : s.isDir fnp = true)
    (htarget : renameDirTarget root linkMax shadow fails fuel s fdp fnp fromname tdp toname excl =
      some (.ok t)) (hsame : t ≠ .same) (hre : Reparented s fdp fnp tdp s₂)
    (hattach : fails .attach = false)
    (hre₃ : Reattached root shadow fails (s₂.addLinks fnp 1) fnp tdp toname t s₃) :
    s₃.lookup fdp fromname = some fnp ∧ s₃.isDir = s.isDir ∧
      Moved s fdp fnp fromname tdp toname t ((s₃.remove fdp fromname).addLinks fnp (-1)) := by
  obtain ⟨-, -, -, hlookup, hat, hover⟩ := renameDirTarget_ok htarget hsame
  have hnamed : s.Names fdp fromname fnp := ⟨hlookup, hfrom.1, hfrom.2, hdir⟩
  have hk₂ : (s₂.addLinks fnp 1).Keys := hre.keys h.keys
  have hat₂ := hre.at h.keys hto.2 hat
  -- the file system behind the new name
  have hk₁ := keys_attach hk₂ hat₂ hsame
  have hlookup₁ : ∀ d x, ((s₂.addLinks fnp 1).attach tdp fnp toname t).lookup d x =
      if d = tdp ∧ x = toname then some fnp
      else if fdp ≠ tdp ∧ d = fnp ∧ x = dotdot then some tdp else s.lookup d x := by
    intro d x
    rw [lookup_attach hk₂, Fs.lookup_addLinks, hre.lookup h.keys]
  have hslack₁ : ∀ n, ((s₂.addLinks fnp 1).attach tdp fnp toname t).slack n = s.slack n := by
    intro n
    rw [slack_attach hat₂ hsame, Fs.slack_addLinks, hre.slack]
    split_ifs <;> omega
  -- and behind the clearing of what was there
  have hcleared : s₃.Keys ∧ s₃.isDir = s.isDir ∧ (∀ n, s₃.slack n = s.slack n) ∧
      (∀ {d x n}, t = .another d → s₃.lookup d x = some n → s.lookup d x = some n) ∧
      ∀ {d x}, t ≠ .another d → s₃.lookup d x =
        ((s₂.addLinks fnp 1).attach tdp fnp toname t).lookup d x := by
    cases hre₃ with
    | nothing =>
      rw [if_neg (by simp [hattach])]
      exact ⟨hk₁, by simp [hre.isDir], hslack₁, by simp, fun _ => rfl⟩
    | @another tnp _ hclear =>
      rw [if_neg (by simp [hattach])] at hclear
      obtain ⟨-, hreplaced⟩ := lookup_replaced hre h.keys hto hat (hover tnp rfl).2
      refine ⟨hclear.keys hk₁, by rw [hclear.isDir]; simp [hre.isDir], ?_, ?_, ?_⟩
      · intro n
        rw [hclear.slack hk₁ _ n, hslack₁ n]
        intro x hx
        rw [hreplaced] at hx
        exact Fs.dirempty_lookup (hover tnp rfl).2 hx
      · rintro d x n heq hn
        cases heq
        exact (hreplaced x).symm.trans (hclear.lookup_imp hk₁ hn)
      · intro d x hd
        exact hclear.lookup_of_ne hk₁ fun heq => hd (heq ▸ rfl)
  obtain ⟨hk₃, hisDir₃, hslack₃, hover₃, hother₃⟩ := hcleared
  have hnot_over : ∀ {p x d}, s.Names p x d → t ≠ .another p := by
    rintro p x d hp rfl
    exact hp.not_empty (fun x hx => Fs.dirempty_lookup (hover p rfl).2 hx) rfl
  have hne_new : ¬ (fdp = tdp ∧ fromname = toname) := by
    rintro ⟨rfl, rfl⟩
    cases t with
    | same => exact hsame rfl
    | nothing =>
      have hnone : s.lookup fdp fromname = none := hat
      rw [hlookup] at hnone
      cases hnone
    | another tnp => exact hat.2 (some.inj (hat.1.symm.trans hlookup))
  have hfnp : t ≠ .another fnp := by
    rintro rfl
    exact hat.2 rfl
  have htdp : t ≠ .another tdp := by
    rintro rfl
    obtain ⟨hne, -⟩ := lookup_replaced hre h.keys hto hat (hover tdp rfl).2
    exact hne rfl
  have hfound : s₃.lookup fdp fromname = some fnp := by
    rw [hother₃ (hnot_over hnamed), hlookup₁, if_neg hne_new,
      if_neg (fun heq => hfrom.2 heq.2.2), hlookup]
  have hlookup' : ∀ d x, ((s₃.remove fdp fromname).addLinks fnp (-1)).lookup d x =
      if d = fdp ∧ x = fromname then none else s₃.lookup d x := by
    intro d x
    rw [Fs.lookup_addLinks, hk₃.lookup_remove]
  refine ⟨hfound, hisDir₃, ?_⟩
  exact
    { keys := hk₃.remove fdp fromname
      isDir := hisDir₃
      slack := by
        intro n
        rw [Fs.slack_addLinks, Fs.slack_remove hfound, hslack₃ n]
        split_ifs <;> omega
      gone := by rw [hlookup', if_pos ⟨rfl, rfl⟩]
      new := by
        rw [hlookup', if_neg (fun heq => hne_new ⟨heq.1.symm, heq.2.symm⟩), hother₃ htdp,
          hlookup₁, if_pos ⟨rfl, rfl⟩]
      up := by
        rw [hlookup', if_neg (fun heq => hfrom.2 heq.2.symm), hother₃ hfnp, hlookup₁,
          if_neg (fun heq => hto.2 heq.2.symm)]
        by_cases heq : fdp = tdp
        · rw [if_neg (fun hmove => hmove.1 heq), h.parent hnamed, heq]
        · rw [if_pos ⟨heq, rfl, rfl⟩]
      replaced := by
        intro d x n hd hn
        rw [hlookup'] at hn
        split at hn
        · cases hn
        · exact hover₃ hd hn
      other := by
        intro d x hd hgone hnew hup
        rw [hlookup', if_neg hgone, hother₃ hd, hlookup₁, if_neg hnew,
          if_neg (fun hmove => hup hmove.2)] }

/-- The directory moved and what was at its new name keep the tree in order, when the new place is
not below the old one. -/
theorem TreeInv.move (h : TreeInv root s) (hm : Moved s fdp fnp fromname tdp toname t s')
    (hnamed : s.Names fdp fromname fnp) (hto : toname ≠ dot ∧ toname ≠ dotdot)
    (hat : t.At s tdp fnp toname) (hsame : t ≠ .same)
    (hover : ∀ tnp, t = .another tnp → s.isDir tnp = true ∧ s.dirempty tnp = true)
    (htree : tdp = root ∨ s.Linked tdp) (hbelow : ¬ ReflTransGen s.Up tdp fnp) :
    TreeInv root s' := by
  have hfnp : t ≠ .another fnp := by
    rintro rfl
    exact hat.2 rfl
  have hnot_over : ∀ {p x d}, s.Names p x d → t ≠ .another p := by
    rintro p x d hp rfl
    exact hp.not_empty (fun x hx => Fs.dirempty_lookup (hover p rfl).2 hx) rfl
  -- a name is the new one, or another one that was there
  have hnames : ∀ {p x d}, s'.Names p x d → (p = tdp ∧ x = toname ∧ d = fnp) ∨
      s.Names p x d ∧ d ≠ fnp ∧ t ≠ .another d := by
    intro p x d hp
    have hx := hp.lookup
    have hdir : s.isDir d = true := hm.isDir ▸ hp.isDir
    by_cases hnew : p = tdp ∧ x = toname
    · obtain ⟨rfl, rfl⟩ := hnew
      rw [hm.new, Option.some.injEq] at hx
      exact .inl ⟨rfl, rfl, hx.symm⟩
    · have hgone : ¬ (p = fdp ∧ x = fromname) := by
        rintro ⟨rfl, rfl⟩
        rw [hm.gone] at hx
        cases hx
      have hold : s.Names p x d := by
        refine ⟨?_, hp.ne_dot, hp.ne_dotdot, hdir⟩
        by_cases hp' : t = .another p
        · exact hm.replaced hp' hx
        · rw [← hx, hm.other hp' hgone hnew fun heq => hp.ne_dotdot heq.2]
      refine .inr ⟨hold, ?_, ?_⟩
      · rintro rfl
        exact hgone (h.names_eq hnamed hold)
      · rintro rfl
        have hthere : s.Names tdp toname d := ⟨hat.1, hto.1, hto.2, hdir⟩
        exact hnew (h.names_eq hthere hold)
  -- the other names stay
  have hlinked : ∀ {d}, s.Linked d → t ≠ .another d → s'.Linked d := by
    rintro d ⟨p, x, hp⟩ hd
    by_cases hdf : d = fnp
    · subst hdf
      exact ⟨tdp, toname, hm.new, hto.1, hto.2, hm.isDir ▸ hp.isDir⟩
    · refine ⟨p, x, ?_, hp.ne_dot, hp.ne_dotdot, hm.isDir ▸ hp.isDir⟩
      rw [hm.other (hnot_over hp) _ _ fun heq => hp.ne_dotdot heq.2, hp.lookup]
      · rintro ⟨rfl, rfl⟩
        exact hdf (some.inj (hp.lookup.symm.trans hnamed.lookup))
      · rintro ⟨rfl, rfl⟩
        cases t with
        | same => exact hsame rfl
        | nothing =>
          have hnone : s.lookup p x = none := hat
          rw [hp.lookup] at hnone
          cases hnone
        | another tnp => exact hd (by rw [some.inj (hat.1.symm.trans hp.lookup)])
  have hold : ∀ {d}, s'.Linked d → s.Linked d := by
    rintro d ⟨p, x, hp⟩
    rcases hnames hp with ⟨-, -, rfl⟩ | ⟨hp, -⟩
    · exact ⟨fdp, fromname, hnamed⟩
    · exact ⟨p, x, hp⟩
  have hup : ∀ {d}, t ≠ .another d → d ≠ fnp → s'.lookup d dotdot = s.lookup d dotdot := by
    intro d hd hdf
    exact hm.other hd (fun heq => hnamed.ne_dotdot heq.2.symm) (fun heq => hto.2 heq.2.symm)
      fun heq => hdf heq.1
  have htdp : t ≠ .another tdp := by
    rintro rfl
    rcases Fs.dirempty_lookup (hover tdp rfl).2 (x := toname) (by simp [hat.1]) with hx | hx
    · exact hto.1 hx
    · exact hto.2 hx
  have hroot : t ≠ .another root := by
    rintro rfl
    exact h.ne_root ⟨hat.1, hto.1, hto.2, (hover root rfl).1⟩ rfl
  have htdp_climbs : ReflTransGen s'.Up tdp root := by
    apply climb_transfer (fun a => s.Linked a ∧ t ≠ .another a ∧ ReflTransGen s.Up tdp a) _
      (h.climbs' htree)
    · rcases htree with hr | hl
      · exact .inr hr
      · exact .inl ⟨hl, htdp, .refl⟩
    · rintro a b ⟨⟨p, x, hp⟩, ha, hclimb⟩ - hab
      have hbp : b = p := some.inj (hab.symm.trans (h.parent hp))
      subst hbp
      have haf : a ≠ fnp := by
        rintro rfl
        exact hbelow hclimb
      refine .inr ⟨(hup ha haf).trans hab, ?_⟩
      rcases h.above hp with hb | hb
      · exact .inr hb
      · exact .inl ⟨hb, hnot_over hp, hclimb.tail hab⟩
  exact
    { keys := hm.keys
      rootDir := hm.isDir ▸ h.rootDir
      rootUp := (hup hroot (h.ne_root hnamed).symm).trans h.rootUp
      parent := by
        intro p x d hp
        rcases hnames hp with ⟨rfl, -, rfl⟩ | ⟨hp, hdf, hd⟩
        · exact hm.up
        · exact (hup hd hdf).trans (h.parent hp)
      unique := by
        intro p x y d hp hq
        rcases hnames hp with ⟨-, rfl, rfl⟩ | ⟨hp, hdf, -⟩
        · rcases hnames hq with ⟨-, rfl, -⟩ | ⟨-, hdf, -⟩
          · rfl
          · exact absurd rfl hdf
        · rcases hnames hq with ⟨-, -, rfl⟩ | ⟨hq, -⟩
          · exact absurd rfl hdf
          · exact h.unique hp hq
      ne_root := by
        intro p x d hp
        rcases hnames hp with ⟨-, -, rfl⟩ | ⟨hp, -⟩
        · exact h.ne_root hnamed
        · exact h.ne_root hp
      above := by
        intro p x d hp
        rcases hnames hp with ⟨rfl, -, -⟩ | ⟨hp, -⟩
        · exact htree.imp id fun hl => hlinked hl htdp
        · exact (h.above hp).imp id fun hl => hlinked hl (hnot_over hp)
      climbs := by
        intro d hd
        apply climb_transfer s'.Linked _ (h.climbs (hold hd)) (.inl hd)
        rintro a b ⟨p, x, hp⟩ - hab
        rcases hnames hp with ⟨-, -, rfl⟩ | ⟨hp, haf, ha⟩
        · exact .inl (.head hm.up htdp_climbs)
        · have hbp : b = p := some.inj (hab.symm.trans (h.parent hp))
          subst hbp
          refine .inr ⟨(hup ha haf).trans hab, ?_⟩
          rcases h.above hp with hb | hb
          · exact .inr hb
          · exact .inl (hlinked hb (hnot_over hp))
      dots := by
        intro d n hn
        have hn' : s.lookup d dot = some n := by
          by_cases hd : t = .another d
          · exact hm.replaced hd hn
          · rw [← hn, hm.other hd (fun heq => hnamed.ne_dot heq.2.symm)
              (fun heq => hto.1 heq.2.symm) fun heq => dot_ne_dotdot heq.2]
        exact (h.dots hn').imp id fun hnot hl => hnot (hold hl)
      slack := by
        intro d hd
        rw [hm.slack d]
        exact h.slack (hd.imp id hold) }

theorem checkpath_ok {i np : Nat}
    (h : checkpath root shadow fails s fnp fuel i np = some none) :
    ∃ g, (g = root ∨ shadow = some g) ∧ g ≠ fnp ∧
      ReflTransGen (fun a b => a ≠ fnp ∧ s.Up a b) np g := by
  induction fuel generalizing i np with
  | zero => cases h
  | succ fuel ih =>
    unfold checkpath at h
    split at h
    · cases h
    · rename_i hne
      split at h
      · rename_i hend
        exact ⟨np, hend, hne, .refl⟩
      · split at h
        · cases h
        · rename_i newnp hfound
          obtain ⟨g, hg, hgne, hclimb⟩ := ih h
          exact ⟨g, hg, hgne, .head ⟨hne, (diskfsLookup_ok hfound).2.2⟩ hclimb⟩

theorem TreeInv.not_below (h : TreeInv root s) (hnamed : s.Names fdp fromname fnp)
    (hpath : checkpath root shadow fails s fnp fuel 0 tdp = some none)
    (hshadow : ¬ ∃ g, shadow = some g ∧ ReflTransGen s.Up tdp g ∧ TransGen s.Up g fnp) :
    ¬ ReflTransGen s.Up tdp fnp := by
  intro hclimb
  obtain ⟨g, hg, hne, havoid⟩ := checkpath_ok hpath
  have habove := climb_of_avoiding (up_rightUnique s) havoid hclimb
  rcases hg with rfl | hg
  · exact h.not_above_root (h.ne_root hnamed) habove
  · apply hshadow
    refine ⟨g, hg, ReflTransGen.mono (fun _ _ hab => hab.2) _ _ havoid, ?_⟩
    rcases reflTransGen_iff_eq_or_transGen.mp habove with heq | hup
    · exact absurd heq.symm hne
    · exact hup

/-- Behind the checks a directory that gets a new parent gets one of the tree, is not above the
shadow root at which `checkpath` ends, and has no links too many; and its new name is made and its
old one removed. -/
def RenameDirKeepsTree (root : Nat) (linkMax : Int) (shadow : Option Nat) (fails : Call → Bool)
    (fuel : Nat) (s : Fs) (fdp fnp : Nat) (fromname : Name) (tdp : Nat) (toname : Name)
    (excl : Bool) : Prop :=
  ∀ t, renameDirTarget root linkMax shadow fails fuel s fdp fnp fromname tdp toname excl =
      some (.ok t) → t ≠ .same → Reparents shadow fails fdp fnp tdp →
    (fdp ≠ tdp → (tdp = root ∨ s.Linked tdp) ∧
      (¬ ∃ g, shadow = some g ∧ ReflTransGen s.Up tdp g ∧ TransGen s.Up g fnp) ∧
      s.nlink fnp ≠ linkMax - 1) ∧
    (s.nlink fnp ≠ linkMax - 1 →
      if fails .attach then fdp = tdp ∧ t = .nothing
      else fails .lookupAgain = false ∧ fails .remove = false)

theorem TreeInv.new_place {s₂ : Fs} (h : TreeInv root s) (hnamed : s.Names fdp fromname fnp)
    (hkeep : RenameDirKeepsTree root linkMax shadow fails fuel s fdp fnp fromname tdp toname excl)
    (hgets : GetsParent root linkMax shadow fails fuel s fdp fnp fromname tdp toname excl t s₂) :
    (tdp = root ∨ s.Linked tdp) ∧ ¬ ReflTransGen s.Up tdp fnp := by
  by_cases hsame : fdp = tdp
  · subst hsame
    refine ⟨h.above hnamed, ?_⟩
    intro hclimb
    exact h.not_circular ⟨fdp, fromname, hnamed⟩ (.head' (h.parent hnamed) hclimb)
  · obtain ⟨htree, hshadow, -⟩ := (hkeep t hgets.target hgets.ne_same hgets.calls).1 hsame
    obtain ⟨hpath, -⟩ := renameDirTarget_ok hgets.target hgets.ne_same
    exact ⟨htree, h.not_below hnamed hpath hshadow⟩

theorem TreeInv.addLinks (h : TreeInv root s) (n : Nat) : TreeInv root (s.addLinks n 1) := by
  apply h.files
  refine ⟨h.keys, rfl, fun _ => Iff.rfl, ?_⟩
  intro m _
  rw [Fs.slack_addLinks]
  split_ifs <;> omega

theorem treeInv_renameDir (h : TreeInv root s) (hdir : s.isDir fnp = true)
    (hfrom : fromname ≠ dot ∧ fromname ≠ dotdot) (hto : toname ≠ dot ∧ toname ≠ dotdot)
    (hkeep : RenameDirKeepsTree root linkMax shadow fails fuel s fdp fnp fromname tdp toname excl)
    (hrenamed : RenamedDir root linkMax shadow fails fuel s fdp fnp fromname tdp toname excl s') :
    TreeInv root s' := by
  -- the links of the directory are not changed before its new name is made
  have hnlink : ∀ {t s₂}, GetsParent root linkMax shadow fails fuel s fdp fnp fromname tdp toname
      excl t s₂ → s.Names fdp fromname fnp ∧ s₂.nlink fnp = s.nlink fnp := by
    intro t s₂ hgets
    obtain ⟨-, -, -, hlookup, -, -⟩ := renameDirTarget_ok hgets.target hgets.ne_same
    have hnamed : s.Names fdp fromname fnp := ⟨hlookup, hfrom.1, hfrom.2, hdir⟩
    refine ⟨hnamed, hgets.parent.nlink (h.names_ne hnamed).symm ?_⟩
    rintro rfl
    exact (h.new_place hnamed hkeep hgets).2 .refl
  have hcalls : ∀ {t s₂}, GetsParent root linkMax shadow fails fuel s fdp fnp fromname tdp toname
      excl t s₂ → s₂.nlink fnp ≠ linkMax - 1 →
      if fails .attach then fdp = tdp ∧ t = .nothing
      else fails .lookupAgain = false ∧ fails .remove = false := by
    intro t s₂ hgets hmany
    rw [(hnlink hgets).2] at hmany
    exact (hkeep t hgets.target hgets.ne_same hgets.calls).2 hmany
  cases hrenamed with
  | unchanged => exact h
  | parentFailed _ _ _ _ => exact h.addLinks tdp
  | tooManyLinks hgets hmany =>
    rw [(hnlink hgets).2] at hmany
    cases hgets.parent with
    | stay _ => exact h
    | move hne _ =>
      exact absurd hmany ((hkeep _ hgets.target hgets.ne_same hgets.calls).1 hne).2.2
  | attachFailed hgets hmany hre₃ hattach =>
    have hstay := hcalls hgets hmany
    rw [if_pos hattach] at hstay
    obtain ⟨rfl, rfl⟩ := hstay
    cases hre₃
    rw [if_pos hattach]
    cases hgets.parent with
    | stay _ => exact h.addLinks fnp
    | move hne _ => exact absurd rfl hne
  | linked hgets hmany hre₃ hattach hwhy =>
    have hfound := hcalls hgets hmany
    rw [if_neg (by simp [hattach])] at hfound
    obtain ⟨hlookup, hisDir, -⟩ := moved_of_reattached h hfrom hto hdir hgets.target
      hgets.ne_same hgets.parent hattach hre₃
    obtain ⟨-, -, hfdp, -⟩ := renameDirTarget_ok hgets.target hgets.ne_same
    simp [hfound.1, hlookup, hisDir, hfdp] at hwhy
  | removeFailed hgets hmany _ hattach _ hremove =>
    have hfound := hcalls hgets hmany
    rw [if_neg (by simp [hattach]), hremove] at hfound
    cases hfound.2
  | moved hgets _ hre₃ hattach _ =>
    obtain ⟨-, -, -, -, hat, hover⟩ := renameDirTarget_ok hgets.target hgets.ne_same
    obtain ⟨-, -, hmoved⟩ := moved_of_reattached h hfrom hto hdir hgets.target hgets.ne_same
      hgets.parent hattach hre₃
    obtain ⟨hnamed, -⟩ := hnlink hgets
    obtain ⟨htree, hbelow⟩ := h.new_place hnamed hkeep hgets
    exact h.move hmoved hnamed hto hat hgets.ne_same hover htree hbelow

end Rename

/-- New directories and new places of directories are in the tree, and no directory is moved below
itself. -/
def Event.KeepsTree (root : Nat) (linkMax : Int) (s : Fs) : Event → Prop
  | .mkdir shadow fails dnp name _ =>
      MkdirEnters root linkMax shadow fails s dnp name → fails .attach = false →
        dnp = root ∨ s.Linked dnp
  | .rename shadow _ fails fuel fdp fromname tdp toname excl =>
      ∀ fnp, diskfsLookup root shadow fails .lookupSource s fdp fromname = .ok fnp →
        s.isDir fnp = true →
        RenameDirKeepsTree root linkMax shadow fails fuel s fdp fnp fromname tdp toname excl
  | _ => True

theorem treeInv_step {e : Event} (h : TreeInv root s) (hok : e.Enabled root s)
    (hkeep : e.KeepsTree root linkMax s) (hs : step root linkMax s e = some s') :
    TreeInv root s' := by
  cases e with
  | link shadow fails np dnp name excl =>
    cases hs
    exact treeInv_dirLink h
  | mkdir shadow fails dnp name new =>
    obtain ⟨⟨err, s₂⟩, hmade, rfl⟩ := map_eq_some_iff.mp hs
    exact treeInv_dirMkdir h hok hkeep (dirMkdir_cases hok.1 hok.2.1 hmade)
  | rmdir shadow fails dnp name =>
    obtain ⟨⟨err, s₂⟩, hremoved, rfl⟩ := map_eq_some_iff.mp hs
    exact treeInv_dirRmdir h (dirRmdir_cases hremoved)
  | rename shadow toShadow fails fuel fdp fromname tdp toname excl =>
    obtain ⟨⟨err, s₂⟩, hrenamed, rfl⟩ := map_eq_some_iff.mp hs
    rcases dirRename_cases hrenamed with hsame | ⟨-, hnames, fnp, hfound, hwhat⟩
    · rw [hsame]
      exact h
    · rcases hwhat with ⟨hdir, hrenamed⟩ | ⟨hfile, hrenamed⟩
      · exact treeInv_renameDir h hdir ⟨hnames.1, hnames.2.1⟩ ⟨hnames.2.2.1, hnames.2.2.2⟩
          (hkeep fnp hfound hdir) hrenamed
      · exact treeInv_renameFile h hfile hrenamed
  | drop n =>
    cases hs
    exact treeInv_discard h hok.1 hok.2

/-- In every run in which each request keeps the tree, every directory with a name leads up to the
root, and none is below itself. -/
theorem climbs_to_root {init : Fs} (hinit : TreeInv root init)
    (h : Reach (step root linkMax) (fun s e => e.Enabled root s ∧ e.KeepsTree root linkMax s)
      init s) (hd : s.Linked d) : ReflTransGen s.Up d root ∧ ¬ TransGen s.Up d d := by
  have hinv : TreeInv root s :=
    h.invariant (TreeInv root) hinit fun _ _ _ hinv hok hs => treeInv_step hinv hok.1 hok.2 hs
  exact ⟨hinv.climbs hd, hinv.not_circular hd⟩

theorem treeInv_rootOnly : TreeInv 2 rootOnly := by
  have hlookup : ∀ {p x n}, rootOnly.lookup p x = some n →
      p = 2 ∧ (x = dot ∨ x = dotdot) ∧ n = 2 := by
    intro p x n hx
    obtain ⟨l₁, l₂, hl, -⟩ := Fs.lookup_eq_some.mp hx
    have hmem : (⟨p, x, n⟩ : DirEntry) ∈ rootOnly.entries := by simp [hl]
    simp [rootOnly, Fs.ofEntries] at hmem
    rcases hmem with ⟨rfl, rfl, rfl⟩ | ⟨rfl, rfl, rfl⟩
    · exact ⟨rfl, .inl rfl, rfl⟩
    · exact ⟨rfl, .inr rfl, rfl⟩
  have hnone : ∀ {p x d}, ¬ rootOnly.Names p x d := by
    intro p x d hp
    rcases (hlookup hp.lookup).2.1 with hx | hx
    · exact hp.ne_dot hx
    · exact hp.ne_dotdot hx
  exact
    { keys := by
        unfold Fs.Keys
        decide
      rootDir := rfl
      rootUp := rfl
      parent := fun hp => absurd hp hnone
      unique := fun hp => absurd hp hnone
      ne_root := fun hp => absurd hp hnone
      above := fun hp => absurd hp hnone
      climbs := by
        rintro d ⟨p, x, hp⟩
        exact absurd hp hnone
      dots := fun hn => .inl ((hlookup hn).2.2.trans (hlookup hn).1.symm)
      slack := by
        rintro d -
        simp [Fs.slack, Fs.refs, rootOnly, Fs.ofEntries] }

theorem climbs_to_root_move :
    ∃ s, Reach (step 2 32000) (fun s e => e.Enabled 2 s ∧ e.KeepsTree 2 32000 s) rootOnly s ∧
      s.lookup 4 [97] = some 3 ∧ ReflTransGen s.Up 3 2 ∧ ¬ TransGen s.Up 3 3 := by
  have hreach : ∃ s, Reach (step 2 32000) (fun s e => e.Enabled 2 s ∧ e.KeepsTree 2 32000 s)
      rootOnly s ∧ s.lookup 4 [97] = some 3 ∧ s.isDir 3 = true := by
    refine ⟨_, .step (.rename none none (fun _ => false) 5 2 [97] 4 [97] false)
      (.step (.mkdir none (fun _ => false) 2 [98] 4)
        (.step (.mkdir none (fun _ => false) 2 [97] 3) .start ⟨by decide, fun _ _ => .inl rfl⟩ rfl)
        ⟨by decide, fun _ _ => .inl rfl⟩ rfl) ⟨trivial, ?_⟩ rfl, rfl, rfl⟩
    intro fnp hfound _ t _ _ _
    have hfnp : (3 : Nat) = fnp := Except.ok.inj hfound
    subst hfnp
    exact ⟨fun _ => ⟨.inr ⟨2, [98], rfl, by decide, by decide, rfl⟩, by simp, by decide⟩,
      fun _ => ⟨rfl, rfl⟩⟩
  obtain ⟨s, hreach, hlookup, hdir⟩ := hreach
  exact ⟨s, hreach, hlookup, climbs_to_root treeInv_rootOnly hreach
    ⟨4, [97], hlookup, by decide, by decide, hdir⟩⟩

/-- Under the shadow root `s` a user moves `f/d` to `t`. Meanwhile `f` has been moved to the root,
and `s` below `f/d`. -/
def circularMoves : List Event :=
  [.mkdir none (fun _ => false) 2 [115] 3, .mkdir none (fun _ => false) 3 [102] 4,
    .mkdir none (fun _ => false) 4 [100] 5, .mkdir none (fun _ => false) 3 [116] 6,
    .rename none none (fun _ => false) 5 3 [102] 2 [102] false,
    .rename none none (fun _ => false) 5 2 [115] 5 [115] false,
    .rename (some 3) (some 3) (fun _ => false) 5 4 [100] 6 [100] false]

/-- The directory `d` comes to be in `t`, which is in `s`, which is in `d`. -/
theorem not_climbs_to_root_shadow :
    TreeInv 2 rootOnly ∧ ¬ ∀ s, Reach (step 2 32000) (fun s e => e.Enabled 2 s) rootOnly s →
      ∀ d, s.Linked d → ReflTransGen s.Up d 2 := by
  refine ⟨treeInv_rootOnly, ?_⟩
  intro hclaim
  obtain ⟨s, hrun⟩ : ∃ s, runLabels (step 2 32000) rootOnly circularMoves = some s :=
    isSome_iff_exists.mp (by decide)
  have hs : (runLabels (step 2 32000) rootOnly circularMoves).map (fun s =>
      (s.lookup 6 [100], s.isDir 5, s.lookup 5 dotdot, s.lookup 6 dotdot, s.lookup 3 dotdot)) =
      some (some 5, true, some 6, some 3, some 5) := by decide
  simp only [hrun, map_some, Option.some.injEq, Prod.mk.injEq] at hs
  obtain ⟨hname, hdir, h5, h6, h3⟩ := hs
  have hreach : Reach (step 2 32000) (fun s e => e.Enabled 2 s) rootOnly s :=
    Reach.start.labels circularMoves (by decide) hrun
  have hclimb := hclaim s hreach 5 ⟨6, [100], hname, by decide, by decide, hdir⟩
  have hcircle : ∀ {n}, ReflTransGen s.Up 5 n → n = 5 ∨ n = 6 ∨ n = 3 := by
    intro n hn
    induction hn with
    | refl => exact .inl rfl
    | tail _ hab ih =>
      rcases ih with rfl | rfl | rfl
      · exact .inr (.inl (some.inj (hab.symm.trans h5)))
      · exact .inr (.inr (some.inj (hab.symm.trans h6)))
      · exact .inl (some.inj (hab.symm.trans h3))
  exact absurd (hcircle hclimb) (by decide)

end Hurd.DirOps
