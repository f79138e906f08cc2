import Hurd.Libdiskfs.DirEntries

/-!
# What the operations leave

For each operation on directories the file systems that it may leave, and what has happened when it
leaves them. What is proved of the operations later is proved by cases on these.
-/

namespace Hurd.DirOps

open Function

variable {root : Nat} {linkMax : Int} {shadow : Option Nat} {fails : Call → Bool} {call : Call}
variable {s s' : Fs} {d n dp pdp : Nat} {x : Name} {err : Option Errno}

theorem dot_ne_dotdot : dot ≠ dotdot := by decide

theorem diskfsLookup_ok (h : diskfsLookup root shadow fails call s d x = .ok n) :
    s.isDir d = true ∧ fails call = false ∧ s.lookup d x = some n := by
  unfold diskfsLookup at h
  split at h
  · cases h
  · rename_i hdir
    split at h
    · cases h
    · split at h
      · cases h
      · rename_i hfails
        split at h
        · cases h
        · rename_i m hm
          split at h
          · cases h
          · cases h
            exact ⟨by simpa using hdir, by simpa using hfails, hm⟩

theorem diskfsLookup_ok_dotdot (h : diskfsLookup root shadow fails call s d dotdot = .ok n) :
    shadow ≠ some d ∧ d ≠ root := by
  unfold diskfsLookup at h
  split at h
  · cases h
  · split at h
    · cases h
    · rename_i hshadow
      split at h
      · cases h
      · split at h
        · cases h
        · split at h
          · cases h
          · rename_i hroot
            exact ⟨fun heq => hshadow ⟨heq, rfl⟩, fun heq => hroot ⟨heq, rfl⟩⟩

theorem diskfsLookup_enoent (h : diskfsLookup root shadow fails call s d x = .error .enoent) :
    s.isDir d = true ∧ s.lookup d x = none := by
  unfold diskfsLookup at h
  split at h
  · cases h
  · rename_i hdir
    split at h
    · cases h
    · split at h
      · cases h
      · split at h
        · rename_i hnone
          exact ⟨by simpa using hdir, hnone⟩
        · split at h <;> cases h

theorem diskfsLookup_error {e : Errno}
    (h : diskfsLookup root shadow fails call s d x = .error e) (he : e ≠ .enoent) :
    s.isDir d = false ∨ fails call = true ∨ x = dotdot ∧ (shadow = some d ∨ d = root) := by
  unfold diskfsLookup at h
  split at h
  · rename_i hdir
    exact .inl hdir
  · split at h
    · rename_i hshadow
      exact .inr (.inr ⟨hshadow.2, .inl hshadow.1⟩)
    · split at h
      · rename_i hfails
        exact .inr (.inl hfails)
      · split at h
        · cases h
          exact absurd rfl he
        · split at h
          · rename_i hroot
            exact .inr (.inr ⟨hroot.2, .inr hroot.1⟩)
          · cases h

/-- What a name designates that a node is to get. -/
def Target.At (s : Fs) (d n : Nat) (x : Name) : Target → Prop
  | .same => s.lookup d x = some n
  | .nothing => s.lookup d x = none
  | .another t => s.lookup d x = some t ∧ t ≠ n

theorem newLink_ok {np dnp : Nat} {name : Name} {excl : Bool} {t : Target}
    (h : newLink root linkMax shadow fails s np dnp name excl = .ok t) :
    s.isDir dnp = true ∧ t.At s dnp np name ∧ ∀ tnp, t = .another tnp → s.isDir tnp = false := by
  unfold newLink at h
  split at h
  · rename_i hnone
    obtain ⟨hdir, hlookup⟩ := diskfsLookup_enoent hnone
    split at h
    · cases h
    · cases h
      exact ⟨hdir, hlookup, by simp⟩
  · cases h
  · cases h
  · rename_i tnp hfound
    obtain ⟨hdnp, -, hlookup⟩ := diskfsLookup_ok hfound
    split at h
    · cases h
    · split at h
      · rename_i hsame
        cases h
        exact ⟨hdnp, hsame ▸ hlookup, by simp⟩
      · rename_i hne
        split at h
        · cases h
        · rename_i hdir
          split at h
          · cases h
          · cases h
            exact ⟨hdnp, ⟨hlookup, hne⟩, by simpa using hdir⟩

theorem slack_attach {t : Target} (h : t.At s d n x) (ht : t ≠ .same) (m : Nat) :
    (s.attach d n x t).slack m = s.slack m - if n = m then 1 else 0 := by
  cases t with
  | same => exact absurd rfl ht
  | nothing => exact Fs.slack_enter
  | another t =>
    rw [Fs.attach, Fs.slack_addLinks, Fs.slack_rewrite h.1]
    split_ifs <;> omega

@[simp] theorem isDir_attach {t : Target} : (s.attach d n x t).isDir = s.isDir := by
  cases t <;> rfl

theorem keys_attach {t : Target} (hk : s.Keys) (h : t.At s d n x) (ht : t ≠ .same) :
    (s.attach d n x t).Keys := by
  cases t with
  | same => exact absurd rfl ht
  | nothing => exact hk.enter h n
  | another t => exact hk.rewrite d n x

theorem lookup_attach {t : Target} (hk : s.Keys) (d' : Nat) (x' : Name) :
    (s.attach d n x t).lookup d' x' = if d' = d ∧ x' = x then some n else s.lookup d' x' := by
  cases t with
  | same => exact Fs.lookup_enter
  | nothing => exact Fs.lookup_enter
  | another t => exact hk.lookup_rewrite

/-- The file system without a directory. -/
def Fs.clear (s : Fs) (dp pdp : Nat) : Fs :=
  ((((s.remove dp dot).addLinks dp (-1)).remove dp dotdot).addLinks pdp (-1)).truncate dp

/-- What `diskfs_clear_directory` leaves. -/
inductive Cleared (root : Nat) (shadow : Option Nat) (fails : Call → Bool) (s : Fs) (dp pdp : Nat) :
    Fs → Prop
  /-- The entry for the directory itself is still there. -/
  | kept : s.isDir dp = false ∨ fails .clearLookupDot = true ∨ fails .clearRemoveDot = true →
      Cleared root shadow fails s dp pdp s
  /-- The entry for the parent is still there. -/
  | half : s.lookup dp dot = some dp →
      fails .clearLookupDot = false → fails .clearRemoveDot = false →
      fails .clearLookupDotdot = true ∨ fails .clearRemoveDotdot = true ∨ shadow = some dp ∨
        dp = root →
      Cleared root shadow fails s dp pdp ((s.remove dp dot).addLinks dp (-1))
  | whole : dp ≠ root → s.lookup dp dot = some dp →
      (s.remove dp dot).lookup dp dotdot = some pdp →
      Cleared root shadow fails s dp pdp (s.clear dp pdp)

theorem clearDirectory_cases (h : clearDirectory root shadow fails s dp pdp = some (err, s')) :
    Cleared root shadow fails s dp pdp s' := by
  unfold clearDirectory at h
  split at h
  · cases h
  · rename_i e hne herr
    cases h
    apply Cleared.kept
    rcases diskfsLookup_error herr hne with hdir | hfails | ⟨hdots, -⟩
    · exact .inl hdir
    · exact .inr (.inl hfails)
    · exact absurd hdots (by decide)
  · rename_i np hdot
    obtain ⟨hdir, hlookup, hx⟩ := diskfsLookup_ok hdot
    split at h
    · cases h
    · rename_i hnp
      rw [not_not.mp hnp] at hx
      split at h
      · rename_i hremove
        cases h
        exact .kept (.inr (.inr hremove))
      · rename_i hremove
        have hhalf : fails .clearLookupDotdot = true ∨ fails .clearRemoveDotdot = true ∨
            shadow = some dp ∨ dp = root →
            Cleared root shadow fails s dp pdp ((s.remove dp dot).addLinks dp (-1)) :=
          .half hx hlookup (by simpa using hremove)
        dsimp only at h
        split at h
        · cases h
        · rename_i e hne herr
          cases h
          apply hhalf
          rcases diskfsLookup_error herr hne with hdir' | hfails | ⟨-, hroot⟩
          · exact absurd hdir (by simpa using hdir')
          · exact .inl hfails
          · exact .inr (.inr hroot)
        · rename_i up hup
          split at h
          · cases h
          · rename_i hpdp
            split at h
            · rename_i hremove'
              cases h
              exact hhalf (.inr (.inl hremove'))
            · cases h
              exact .whole (diskfsLookup_ok_dotdot hup).2 hx
                (not_not.mp hpdp ▸ (diskfsLookup_ok hup).2.2)

theorem Fs.Keys.lookup_clear (hk : s.Keys) (d : Nat) (x : Name) :
    (s.clear dp pdp).lookup d x = if d = dp then none else s.lookup d x := by
  have hk₁ : ((s.remove dp dot).addLinks dp (-1)).Keys := hk.remove dp dot
  unfold Fs.clear Fs.truncate
  rw [Fs.lookup_filter_dir]
  by_cases hd : d = dp
  · rw [if_pos hd, if_pos hd]
  · rw [if_neg hd, if_neg hd, Fs.lookup_addLinks, hk₁.lookup_remove, Fs.lookup_addLinks,
      hk.lookup_remove]
    simp [hd]

theorem Fs.Keys.clear (hk : s.Keys) : (s.clear dp pdp).Keys :=
  Fs.Keys.filter (s := (((s.remove dp dot).addLinks dp (-1)).remove dp dotdot).addLinks pdp (-1))
    ((hk.remove dp dot).remove dp dotdot) _

theorem Fs.Keys.slack_clear (hk : s.Keys)
    (hempty : ∀ x, s.lookup dp x ≠ none → x = dot ∨ x = dotdot) (hdot : s.lookup dp dot = some dp)
    (hdotdot : (s.remove dp dot).lookup dp dotdot = some pdp) (n : Nat) :
    (s.clear dp pdp).slack n = s.slack n := by
  have hk₁ : ((s.remove dp dot).addLinks dp (-1)).Keys := hk.remove dp dot
  have hnone : ∀ x, ((((s.remove dp dot).addLinks dp (-1)).remove dp dotdot).addLinks pdp
      (-1)).lookup dp x = none := by
    intro x
    rw [Fs.lookup_addLinks, hk₁.lookup_remove, Fs.lookup_addLinks, hk.lookup_remove]
    by_cases hx : s.lookup dp x = none
    · simp [hx]
    · rcases hempty x hx with rfl | rfl <;> simp
  have hdotdot' : ((s.remove dp dot).addLinks dp (-1)).lookup dp dotdot = some pdp := hdotdot
  rw [Fs.clear, Fs.truncate_eq_self hnone, Fs.slack_addLinks, Fs.slack_remove hdotdot',
    Fs.slack_addLinks, Fs.slack_remove hdot]
  split_ifs <;> omega

namespace Cleared

variable (h : Cleared root shadow fails s dp pdp s')

include h

theorem keys (hk : s.Keys) : s'.Keys := by
  cases h with
  | kept _ => exact hk
  | half _ _ _ _ => exact hk.remove dp dot
  | whole _ _ _ => exact hk.clear

theorem isDir : s'.isDir = s.isDir := by
  cases h <;> rfl

theorem lookup_of_ne (hk : s.Keys) (hd : d ≠ dp) : s'.lookup d x = s.lookup d x := by
  cases h with
  | kept _ => rfl
  | half _ _ _ _ => rw [Fs.lookup_addLinks, hk.lookup_remove, if_neg (fun heq => hd heq.1)]
  | whole _ _ _ => exact (hk.lookup_clear d x).trans (if_neg hd)

theorem lookup_imp (hk : s.Keys) (hn : s'.lookup d x = some n) : s.lookup d x = some n := by
  cases h with
  | kept _ => exact hn
  | half _ _ _ _ =>
    rw [Fs.lookup_addLinks, hk.lookup_remove] at hn
    split at hn
    · cases hn
    · exact hn
  | whole _ _ _ =>
    rw [hk.lookup_clear] at hn
    split at hn
    · cases hn
    · exact hn

theorem slack (hk : s.Keys) (hempty : ∀ x, s.lookup dp x ≠ none → x = dot ∨ x = dotdot) (n : Nat) :
    s'.slack n = s.slack n := by
  cases h with
  | kept _ => rfl
  | half hdot _ _ _ =>
    rw [Fs.slack_addLinks, Fs.slack_remove hdot]
    split_ifs <;> omega
  | whole _ hdot hdotdot => exact hk.slack_clear hempty hdot hdotdot n

end Cleared

/-- A new directory, with its two entries. -/
def Fs.newDir (s : Fs) (new pdp : Nat) : Fs :=
  let s := { s.setLinks new 1 with isDir := update s.isDir new true }
  (((s.addLinks new 1).enter new new dot).addLinks pdp 1).enter new pdp dotdot

theorem Fs.Free.lookup {new : Nat} (hfree : s.Free new) (x : Name) : s.lookup new x = none := by
  rw [Fs.lookup_eq_none]
  intro e he heq
  exact (hfree.entries e he).1 heq.1

theorem Fs.Free.lookup_ne {new : Nat} (hfree : s.Free new) : s.lookup d x ≠ some new := by
  intro hx
  obtain ⟨l₁, l₂, hl, -⟩ := Fs.lookup_eq_some.mp hx
  exact (hfree.entries ⟨d, x, new⟩ (by simp [hl])).2 rfl

theorem Fs.Free.slack {new : Nat} (hfree : s.Free new) : s.slack new = 0 := by
  have hrefs : s.refs new = 0 := by
    rw [Fs.refs, List.countP_eq_zero]
    intro e he
    simpa using (hfree.entries e he).2
  rw [Fs.slack, hrefs, hfree.nlink]
  rfl

theorem Fs.Free.lookup_newDir {new : Nat} (hfree : s.Free new) (d : Nat) (x : Name) :
    (s.newDir new pdp).lookup d x =
      if d = new then (if x = dotdot then some pdp else if x = dot then some new else none)
      else s.lookup d x := by
  unfold Fs.newDir
  rw [Fs.lookup_enter, Fs.lookup_addLinks, Fs.lookup_enter, Fs.lookup_addLinks]
  by_cases hd : d = new
  · subst hd
    by_cases hx : x = dotdot
    · simp [hx]
    · by_cases hx' : x = dot
      · simp [hx', dot_ne_dotdot]
      · rw [if_neg (by simp [hx]), if_neg (by simp [hx']), if_pos rfl, if_neg hx, if_neg hx']
        exact hfree.lookup x
  · simp only [hd, false_and, if_false]
    rfl

theorem Fs.Free.newDir_empty {new : Nat} (hfree : s.Free new) (x : Name)
    (hx : (s.newDir new pdp).lookup new x ≠ none) : x = dot ∨ x = dotdot := by
  by_contra hne
  push Not at hne
  simp [hfree.lookup_newDir, hne.1, hne.2] at hx

theorem Fs.Free.keys_newDir {new : Nat} (hfree : s.Free new) (hk : s.Keys) (pdp : Nat) :
    (s.newDir new pdp).Keys := by
  have hkdot : (s.enter new new dot).Keys := hk.enter (hfree.lookup dot) new
  apply Fs.Keys.enter (s := ((((s.setLinks new 1).addLinks new 1).enter new new dot).addLinks
    pdp 1)) hkdot
  rw [Fs.lookup_addLinks, Fs.lookup_enter, if_neg (by simp [dot_ne_dotdot.symm])]
  exact hfree.lookup dotdot

theorem Fs.Free.slack_newDir {new : Nat} (hfree : s.Free new) (hpdp : pdp ≠ new) (n : Nat) :
    (s.newDir new pdp).slack n = if n = new then 1 else s.slack n := by
  unfold Fs.newDir
  rw [Fs.slack_enter, Fs.slack_addLinks, Fs.slack_enter, Fs.slack_addLinks]
  by_cases hn : n = new
  · subst hn
    have hrefs := hfree.slack
    simp only [Fs.slack, Fs.refs, Fs.setLinks, update_self, hfree.nlink] at hrefs ⊢
    simp only [if_true, if_neg hpdp]
    omega
  · have hset := Fs.slack_setLinks_of_ne (s := s) (k := 1) (Ne.symm hn)
    rw [show Fs.slack { s.setLinks new 1 with isDir := update s.isDir new true } n =
      (s.setLinks new 1).slack n from rfl, hset]
    simp [hn, Ne.symm hn]

theorem Fs.isDir_newDir (s : Fs) (new pdp : Nat) :
    (s.newDir new pdp).isDir = update s.isDir new true := rfl

/-- `dir_mkdir` gets as far as the name of the new directory. -/
structure MkdirEnters (root : Nat) (linkMax : Int) (shadow : Option Nat) (fails : Call → Bool)
    (s : Fs) (dnp : Nat) (name : Name) : Prop where
  absent : diskfsLookup root shadow fails .lookupTarget s dnp name = .error .enoent
  alloc : fails .alloc = false
  nlink : s.nlink dnp ≠ linkMax - 1
  enterDot : fails .enterDot = false
  enterDotdot : fails .enterDotdot = false

/-- What `dir_mkdir` leaves. -/
inductive Made (root : Nat) (linkMax : Int) (shadow : Option Nat) (fails : Call → Bool) (s : Fs)
    (dnp : Nat) (name : Name) (new : Nat) : Fs → Prop
  | unchanged : Made root linkMax shadow fails s dnp name new s
  | entered : MkdirEnters root linkMax shadow fails s dnp name → fails .attach = false →
      Made root linkMax shadow fails s dnp name new ((s.newDir new dnp).enter dnp new name)
  /-- The name could not be entered. -/
  | undone {s₂ : Fs} : MkdirEnters root linkMax shadow fails s dnp name → fails .attach = true →
      Cleared root shadow fails (s.newDir new dnp) new dnp s₂ →
      Made root linkMax shadow fails s dnp name new (s₂.setLinks new 0)

theorem initDir_discard {e : Errno} {new : Nat} (hfree : s.Free new) (hnew : s.isDir new = false)
    (hpdp : pdp ≠ new)
    (h : initDir root linkMax shadow fails
      { s.setLinks new 1 with isDir := update s.isDir new true } new pdp =
        some (some e, s')) : s'.discard new = s := by
  have hentries : (s.entries.filter fun e => e.dir ≠ new) = s.entries := by
    rw [List.filter_eq_self]
    intro e he
    simpa using (hfree.entries e he).1
  have hisDir : update (update s.isDir new true) new false = s.isDir := by
    rw [update_idem, ← hnew, update_eq_self]
  unfold initDir at h
  split at h
  · cases h
    simp only [Fs.discard, Fs.setLinks, hentries, hisDir, update_idem]
    rw [← hfree.nlink, update_eq_self]
  · dsimp only at h
    split at h
    · cases h
    · split at h
      · cases h
        simp only [Fs.discard, Fs.setLinks, Fs.addLinks, hentries, hisDir, update_idem]
        rw [← hfree.nlink, update_eq_self]
      · split at h
        · cases h
        · split at h
          · cases h
            simp only [Fs.discard, Fs.setLinks, Fs.addLinks, Fs.enter, hisDir,
              update_idem]
            rw [List.filter_cons_of_neg (by simp), hentries]
            congr 1
            funext n
            by_cases hn : n = new
            · subst hn
              simp [hfree.nlink]
            · by_cases hp : n = pdp
              · subst hp
                simp only [update_of_ne hn, update_self]
                omega
              · simp only [update_of_ne hn, update_of_ne hp]
          · cases h

theorem initDir_ok {dp pdp : Nat}
    (h : initDir root linkMax shadow fails s dp pdp = some (none, s')) :
    s' = (((s.addLinks dp 1).enter dp dp dot).addLinks pdp 1).enter dp pdp dotdot ∧
      s.nlink pdp ≠ linkMax - 1 ∧ fails .enterDot = false ∧ fails .enterDotdot = false := by
  unfold initDir at h
  split at h
  · cases h
  · rename_i hmany
    dsimp only at h
    split at h
    · cases h
    · split at h
      · cases h
      · rename_i hdot
        split at h
        · cases h
        · split at h
          · cases h
          · rename_i hdotdot
            cases h
            exact ⟨rfl, hmany, by simpa using hdot, by simpa using hdotdot⟩

theorem MkdirEnters.ne {dnp new : Nat} {name : Name}
    (h : MkdirEnters root linkMax shadow fails s dnp name) (hnew : s.isDir new = false) :
    dnp ≠ new := by
  rintro rfl
  have hdir := (diskfsLookup_enoent h.absent).1
  rw [hnew] at hdir
  cases hdir

theorem dirMkdir_cases {dnp new : Nat} {name : Name} (hfree : s.Free new)
    (hnew : s.isDir new = false)
    (h : dirMkdir root linkMax shadow fails s dnp name new = some (err, s')) :
    Made root linkMax shadow fails s dnp name new s' := by
  unfold dirMkdir at h
  split at h
  · rename_i hnone
    have hdnp : dnp ≠ new := by
      rintro rfl
      have hdir := (diskfsLookup_enoent hnone).1
      rw [hnew] at hdir
      cases hdir
    unfold createNode at h
    split at h
    · cases h
      exact .unchanged
    · rename_i halloc
      dsimp only at h
      split at h
      · cases h
      · rename_i e s₁ hinit
        cases h
        rw [initDir_discard hfree hnew hdnp hinit]
        exact .unchanged
      · rename_i s₁ hinit
        obtain ⟨hs₁, hmany, hdot, hdotdot⟩ := initDir_ok hinit
        have henters : MkdirEnters root linkMax shadow fails s dnp name :=
          ⟨hnone, by simpa using halloc, by simpa [Fs.setLinks, hdnp] using hmany, hdot, hdotdot⟩
        have hs₁' : s₁ = s.newDir new dnp := hs₁
        subst hs₁'
        split at h
        · rename_i hattach
          split at h
          · cases h
          · rename_i e s₂ hclear
            cases h
            exact .undone henters hattach (clearDirectory_cases hclear)
        · rename_i hattach
          cases h
          exact .entered henters (by simpa using hattach)
  · cases h
    exact .unchanged
  · cases h
    exact .unchanged
  · cases h
    exact .unchanged

theorem rmdirTarget_ok {dnp np : Nat} {name : Name}
    (h : rmdirTarget root shadow fails s dnp name = .ok np) :
    s.lookup dnp name = some np ∧ dnp ≠ np ∧ s.isDir np = true ∧ s.dirempty np = true := by
  unfold rmdirTarget at h
  split at h
  · cases h
  · cases h
  · rename_i m hfound
    split at h
    · cases h
    · rename_i hne
      split at h
      · cases h
      · split at h
        · cases h
        · rename_i hdir
          split at h
          · cases h
          · rename_i hempty
            cases h
            exact ⟨(diskfsLookup_ok hfound).2.2, hne, by simpa using hdir, by simpa using hempty⟩

/-- What `dir_rmdir` leaves. -/
inductive Removed (root : Nat) (shadow : Option Nat) (fails : Call → Bool) (s : Fs) (dnp : Nat)
    (name : Name) : Fs → Prop
  | unchanged : Removed root shadow fails s dnp name s
  | removed {np : Nat} {s₂ : Fs} : rmdirTarget root shadow fails s dnp name = .ok np →
      fails .remove = false →
      Cleared root shadow fails ((s.remove dnp name).addLinks np (-1)) np dnp s₂ →
      Removed root shadow fails s dnp name s₂

theorem dirRmdir_cases {dnp : Nat} {name : Name}
    (h : dirRmdir root shadow fails s dnp name = some (err, s')) :
    Removed root shadow fails s dnp name s' := by
  unfold dirRmdir at h
  split at h
  · cases h
    exact .unchanged
  · rename_i np htarget
    split at h
    · cases h
      exact .unchanged
    · rename_i hremove
      split at h
      · cases h
      · rename_i e s₂ hclear
        cases h
        exact .removed htarget (by simpa using hremove) (clearDirectory_cases hclear)

section Rename

variable {fdp fnp tdp fuel : Nat} {fromname toname : Name} {excl : Bool} {t : Target}

inductive RenamedFile (root : Nat) (linkMax : Int) (shadow : Option Nat) (fails : Call → Bool)
    (s : Fs) (fdp fnp : Nat) (fromname : Name) (tdp : Nat) (toname : Name) (excl : Bool) :
    Fs → Prop
  | unchanged : RenamedFile root linkMax shadow fails s fdp fnp fromname tdp toname excl s
  | attachFailed {t : Target} :
      newLink root linkMax shadow fails s fnp tdp toname excl = .ok t → t ≠ .same →
      fails .attach = true →
      RenamedFile root linkMax shadow fails s fdp fnp fromname tdp toname excl (s.addLinks fnp 1)
  /-- The node keeps its old name. -/
  | linked {t : Target} :
      newLink root linkMax shadow fails s fnp tdp toname excl = .ok t → t ≠ .same →
      fails .attach = false →
      RenamedFile root linkMax shadow fails s fdp fnp fromname tdp toname excl
        ((s.addLinks fnp 1).attach tdp fnp toname t)
  | removeFailed {t : Target} :
      newLink root linkMax shadow fails s fnp tdp toname excl = .ok t → t ≠ .same →
      fails .lookupAgain = false → fails .remove = true →
      RenamedFile root linkMax shadow fails s fdp fnp fromname tdp toname excl
        (((s.addLinks fnp 1).attach tdp fnp toname t).addLinks fnp (-1))
  | moved {t : Target} :
      newLink root linkMax shadow fails s fnp tdp toname excl = .ok t → t ≠ .same →
      fails .attach = false →
      ((s.addLinks fnp 1).attach tdp fnp toname t).lookup fdp fromname = some fnp →
      RenamedFile root linkMax shadow fails s fdp fnp fromname tdp toname excl
        ((((s.addLinks fnp 1).attach tdp fnp toname t).remove fdp fromname).addLinks fnp (-1))

theorem renameFile_cases
    (h : renameFile root linkMax shadow fails s fdp fnp fromname tdp toname excl = (err, s')) :
    RenamedFile root linkMax shadow fails s fdp fnp fromname tdp toname excl s' := by
  unfold renameFile at h
  split at h
  · cases h
    exact .unchanged
  · cases h
    exact .unchanged
  · rename_i t hsame htarget
    dsimp only at h
    split at h
    · rename_i hattach
      cases h
      exact .attachFailed htarget hsame hattach
    · rename_i hattach
      have hattach' : fails .attach = false := by simpa using hattach
      split at h
      · cases h
        exact .linked htarget hsame hattach'
      · rename_i tmpnp hfound
        obtain ⟨-, hagain, hlookup⟩ := diskfsLookup_ok hfound
        split at h
        · cases h
          exact .linked htarget hsame hattach'
        · rename_i htmp
          split at h
          · rename_i hremove
            cases h
            exact .removeFailed htarget hsame hagain hremove
          · cases h
            exact .moved htarget hsame hattach' (not_not.mp htmp ▸ hlookup)

theorem renameDirChecks_ok {tnp : Option Nat}
    (h : renameDirChecks root linkMax shadow fails s fdp fnp fromname tdp excl tnp = some (.ok t))
    (ht : t ≠ .same) :
    s.isDir fdp = true ∧ s.lookup fdp fromname = some fnp ∧ tnp ≠ some fnp ∧
      t = tnp.elim .nothing .another ∧
      ∀ n, tnp = some n → s.isDir n = true ∧ s.dirempty n = true := by
  unfold renameDirChecks at h
  split at h
  · cases h
  · split at h
    · cases h
      exact absurd rfl ht
    · rename_i hne
      split at h
      · cases h
      · rename_i tmpnp hfound
        obtain ⟨hdir, -, hlookup⟩ := diskfsLookup_ok hfound
        split at h
        · cases h
        · rename_i htmp
          split at h
          · cases h
          · rename_i hdirs
            split at h
            · cases h
            · rename_i hempty
              split at h
              · cases h
              · cases h
                refine ⟨hdir, not_not.mp htmp ▸ hlookup, hne, rfl, ?_⟩
                rintro n rfl
                exact ⟨by simpa using hdirs, by simpa using hempty⟩

theorem renameDirTarget_ok
    (h : renameDirTarget root linkMax shadow fails fuel s fdp fnp fromname tdp toname excl =
      some (.ok t)) (ht : t ≠ .same) :
    checkpath root shadow fails s fnp fuel 0 tdp = some none ∧ s.isDir tdp = true ∧
      s.isDir fdp = true ∧ s.lookup fdp fromname = some fnp ∧ t.At s tdp fnp toname ∧
      ∀ tnp, t = .another tnp → s.isDir tnp = true ∧ s.dirempty tnp = true := by
  unfold renameDirTarget at h
  split at h
  · cases h
  · cases h
  · rename_i hpath
    split at h
    · cases h
    · rename_i hnone
      obtain ⟨htdp, hlookup⟩ := diskfsLookup_enoent hnone
      obtain ⟨hfdp, hfrom, -, rfl, -⟩ := renameDirChecks_ok h ht
      exact ⟨hpath, htdp, hfdp, hfrom, hlookup, by simp⟩
    · cases h
    · rename_i tnp hfound
      obtain ⟨htdp, -, hlookup⟩ := diskfsLookup_ok hfound
      obtain ⟨hfdp, hfrom, hne, rfl, hover⟩ := renameDirChecks_ok h ht
      refine ⟨hpath, htdp, hfdp, hfrom, ⟨hlookup, by simpa using hne⟩, ?_⟩
      rintro n hn
      cases hn
      exact hover tnp rfl

/-- The parent of the directory is not rewritten, or no call keeps it from that. -/
def Reparents (shadow : Option Nat) (fails : Call → Bool) (fdp fnp tdp : Nat) : Prop :=
  fdp ≠ tdp → fails .lookupParent = false ∧ fails .rewriteParent = false ∧ shadow ≠ some fnp

/-- The file system behind step 2 of `diskfs_rename_dir`. -/
inductive Reparented (s : Fs) (fdp fnp tdp : Nat) : Fs → Prop
  | stay : fdp = tdp → Reparented s fdp fnp tdp s
  | move : fdp ≠ tdp → s.lookup fnp dotdot = some fdp →
      Reparented s fdp fnp tdp (((s.addLinks tdp 1).rewrite fnp tdp dotdot).addLinks fdp (-1))

theorem Reparented.lookup {s₂ : Fs} {d : Nat} {x : Name} (h : Reparented s fdp fnp tdp s₂)
    (hk : s.Keys) :
    s₂.lookup d x = if fdp ≠ tdp ∧ d = fnp ∧ x = dotdot then some tdp else s.lookup d x := by
  cases h with
  | stay hsame => simp [hsame]
  | move hne _ =>
    have hk' : (s.addLinks tdp 1).Keys := hk
    rw [Fs.lookup_addLinks, hk'.lookup_rewrite]
    simp [hne]

/-- The file system behind step 3 of `diskfs_rename_dir`. -/
inductive Reattached (root : Nat) (shadow : Option Nat) (fails : Call → Bool) (s : Fs)
    (fnp tdp : Nat) (toname : Name) : Target → Fs → Prop
  | nothing : Reattached root shadow fails s fnp tdp toname .nothing
      (if fails .attach then s else s.attach tdp fnp toname .nothing)
  | another {tnp : Nat} {s₂ : Fs} :
      Cleared root shadow fails
        (if fails .attach then s else s.attach tdp fnp toname (.another tnp)) tnp tdp s₂ →
      Reattached root shadow fails s fnp tdp toname (.another tnp) s₂

theorem Reparented.at {s₂ : Fs} (h : Reparented s fdp fnp tdp s₂) (hk : s.Keys)
    (hto : toname ≠ dotdot) (hat : t.At s tdp fnp toname) :
    t.At (s₂.addLinks fnp 1) tdp fnp toname := by
  have hlookup : (s₂.addLinks fnp 1).lookup tdp toname = s.lookup tdp toname := by
    rw [Fs.lookup_addLinks, h.lookup hk, if_neg (fun heq => hto heq.2.2)]
  cases t with
  | same => exact hlookup.trans hat
  | nothing => exact hlookup.trans hat
  | another tnp => exact ⟨hlookup.trans hat.1, hat.2⟩

theorem Reparented.keys {s₂ : Fs} (h : Reparented s fdp fnp tdp s₂) (hk : s.Keys) : s₂.Keys := by
  cases h with
  | stay => exact hk
  | move => exact Fs.Keys.rewrite (s := s.addLinks tdp 1) hk fnp tdp dotdot

theorem Reparented.slack {s₂ : Fs} (h : Reparented s fdp fnp tdp s₂) (n : Nat) :
    s₂.slack n = s.slack n := by
  cases h with
  | stay => rfl
  | move _ hup =>
    have hup' : (s.addLinks tdp 1).lookup fnp dotdot = some fdp := hup
    rw [Fs.slack_addLinks, Fs.slack_rewrite hup', Fs.slack_addLinks]
    split_ifs <;> omega

theorem Reparented.nlink {s₂ : Fs} (h : Reparented s fdp fnp tdp s₂) {n : Nat} (hf : n ≠ fdp)
    (ht : n ≠ tdp) : s₂.nlink n = s.nlink n := by
  cases h with
  | stay => rfl
  | move => simp [Fs.addLinks, Fs.rewrite, Fs.enter, Fs.remove, hf, ht]

theorem Reparented.isDir {s₂ : Fs} (h : Reparented s fdp fnp tdp s₂) : s₂.isDir = s.isDir := by
  cases h <;> rfl

theorem lookup_replaced {s₂ : Fs} {tnp : Nat} (h : Reparented s fdp fnp tdp s₂) (hk : s.Keys)
    (hto : toname ≠ dot ∧ toname ≠ dotdot) (hat : Target.At s tdp fnp toname (.another tnp))
    (hempty : s.dirempty tnp = true) :
    tdp ≠ tnp ∧ ∀ x, ((s₂.addLinks fnp 1).attach tdp fnp toname (.another tnp)).lookup tnp x =
      s.lookup tnp x := by
  have hne : tdp ≠ tnp := by
    rintro rfl
    have hx : s.lookup tdp toname ≠ none := by simp [hat.1]
    rcases Fs.dirempty_lookup hempty hx with hdot | hdotdot
    · exact hto.1 hdot
    · exact hto.2 hdotdot
  refine ⟨hne, ?_⟩
  intro x
  have hk₂ : (s₂.addLinks fnp 1).Keys := h.keys hk
  rw [lookup_attach hk₂, if_neg (fun heq => hne heq.1.symm), Fs.lookup_addLinks, h.lookup hk,
    if_neg (fun heq => hat.2 heq.2.1)]

/-- `diskfs_rename_dir` gets as far as the new parent. -/
structure GetsParent (root : Nat) (linkMax : Int) (shadow : Option Nat) (fails : Call → Bool)
    (fuel : Nat) (s : Fs) (fdp fnp : Nat) (fromname : Name) (tdp : Nat) (toname : Name)
    (excl : Bool) (t : Target) (s₂ : Fs) : Prop where
  target : renameDirTarget root linkMax shadow fails fuel s fdp fnp fromname tdp toname excl =
    some (.ok t)
  ne_same : t ≠ .same
  calls : Reparents shadow fails fdp fnp tdp
  parent : Reparented s fdp fnp tdp s₂

/-- What the rename of a directory leaves. -/
inductive RenamedDir (root : Nat) (linkMax : Int) (shadow : Option Nat) (fails : Call → Bool)
    (fuel : Nat) (s : Fs) (fdp fnp : Nat) (fromname : Name) (tdp : Nat) (toname : Name)
    (excl : Bool) : Fs → Prop
  | unchanged :
      RenamedDir root linkMax shadow fails fuel s fdp fnp fromname tdp toname excl s
  | parentFailed {t : Target} :
      renameDirTarget root linkMax shadow fails fuel s fdp fnp fromname tdp toname excl =
        some (.ok t) → t ≠ .same → fdp ≠ tdp →
      s.isDir fnp = false ∨ fails .lookupParent = true ∨ fails .rewriteParent = true ∨
        shadow = some fnp ∨ fnp = root →
      RenamedDir root linkMax shadow fails fuel s fdp fnp fromname tdp toname excl
        (s.addLinks tdp 1)
  | tooManyLinks {t : Target} {s₂ : Fs} :
      GetsParent root linkMax shadow fails fuel s fdp fnp fromname tdp toname excl t s₂ →
      s₂.nlink fnp = linkMax - 1 →
      RenamedDir root linkMax shadow fails fuel s fdp fnp fromname tdp toname excl s₂
  | attachFailed {t : Target} {s₂ s₃ : Fs} :
      GetsParent root linkMax shadow fails fuel s fdp fnp fromname tdp toname excl t s₂ →
      s₂.nlink fnp ≠ linkMax - 1 →
      Reattached root shadow fails (s₂.addLinks fnp 1) fnp tdp toname t s₃ → fails .attach = true →
      RenamedDir root linkMax shadow fails fuel s fdp fnp fromname tdp toname excl s₃
  /-- The directory keeps its old name. -/
  | linked {t : Target} {s₂ s₃ : Fs} :
      GetsParent root linkMax shadow fails fuel s fdp fnp fromname tdp toname excl t s₂ →
      s₂.nlink fnp ≠ linkMax - 1 →
      Reattached root shadow fails (s₂.addLinks fnp 1) fnp tdp toname t s₃ →
      fails .attach = false → fails .lookupAgain = true ∨ s₃.isDir fdp = false ∨
        s₃.lookup fdp fromname = none →
      RenamedDir root linkMax shadow fails fuel s fdp fnp fromname tdp toname excl s₃
  | removeFailed {t : Target} {s₂ s₃ : Fs} :
      GetsParent root linkMax shadow fails fuel s fdp fnp fromname tdp toname excl t s₂ →
      s₂.nlink fnp ≠ linkMax - 1 →
      Reattached root shadow fails (s₂.addLinks fnp 1) fnp tdp toname t s₃ →
      fails .attach = false → fails .lookupAgain = false → fails .remove = true →
      RenamedDir root linkMax shadow fails fuel s fdp fnp fromname tdp toname excl
        (s₃.addLinks fnp (-1))
  | moved {t : Target} {s₂ s₃ : Fs} :
      GetsParent root linkMax shadow fails fuel s fdp fnp fromname tdp toname excl t s₂ →
      s₂.nlink fnp ≠ linkMax - 1 →
      Reattached root shadow fails (s₂.addLinks fnp 1) fnp tdp toname t s₃ →
      fails .attach = false → s₃.lookup fdp fromname = some fnp →
      RenamedDir root linkMax shadow fails fuel s fdp fnp fromname tdp toname excl
        ((s₃.remove fdp fromname).addLinks fnp (-1))

theorem reparent_cases (h : reparent root shadow fails s fdp fnp tdp = some (err, s')) :
    err = none ∧ Reparented s fdp fnp tdp s' ∧ Reparents shadow fails fdp fnp tdp ∨
      err ≠ none ∧ fdp ≠ tdp ∧ s' = s.addLinks tdp 1 ∧
        (s.isDir fnp = false ∨ fails .lookupParent = true ∨ fails .rewriteParent = true ∨
          shadow = some fnp ∨ fnp = root) := by
  unfold reparent at h
  split at h
  · rename_i hsame
    cases h
    exact .inl ⟨rfl, .stay hsame, fun hne => absurd hsame hne⟩
  · rename_i hne
    dsimp only at h
    split at h
    · cases h
    · rename_i e hnoent herr
      cases h
      refine .inr ⟨by simp, hne, rfl, ?_⟩
      rcases diskfsLookup_error herr hnoent with hdir | hfails | ⟨-, hroot⟩
      · exact .inl hdir
      · exact .inr (.inl hfails)
      · exact .inr (.inr (.inr hroot))
    · rename_i tmpnp hfound
      obtain ⟨-, hparent, hlookup⟩ := diskfsLookup_ok hfound
      split at h
      · cases h
      · rename_i htmp
        split at h
        · rename_i hrewrite
          cases h
          exact .inr ⟨by simp, hne, rfl, .inr (.inr (.inl hrewrite))⟩
        · rename_i hrewrite
          cases h
          refine .inl ⟨rfl, .move hne (not_not.mp htmp ▸ hlookup), ?_⟩
          exact fun _ => ⟨hparent, by simpa using hrewrite, (diskfsLookup_ok_dotdot hfound).1⟩

theorem reattach_cases (h : reattach root shadow fails s fnp tdp toname t = some s')
    (ht : t ≠ .same) : Reattached root shadow fails s fnp tdp toname t s' := by
  cases t with
  | same => exact absurd rfl ht
  | nothing =>
    cases h
    exact .nothing
  | another tnp =>
    obtain ⟨⟨e, s₂⟩, hclear, rfl⟩ := Option.map_eq_some_iff.mp h
    exact .another (clearDirectory_cases hclear)

theorem renameDir_cases (hfrom : fromname ≠ dotdot)
    (h : renameDir root linkMax shadow fails fuel s fdp fnp fromname tdp toname excl =
      some (err, s')) :
    RenamedDir root linkMax shadow fails fuel s fdp fnp fromname tdp toname excl s' := by
  unfold renameDir at h
  split at h
  · cases h
  · cases h
    exact .unchanged
  · cases h
    exact .unchanged
  · rename_i t hsame htarget
    split at h
    · cases h
    · rename_i e s₂ hre
      cases h
      obtain ⟨hnone, -⟩ | ⟨-, hne, rfl, hwhy⟩ := reparent_cases hre
      · cases hnone
      · exact .parentFailed htarget hsame hne hwhy
    · rename_i s₂ hre
      obtain ⟨-, hmoved, hcalls⟩ | ⟨hsome, -⟩ := reparent_cases hre
      · have hgets : GetsParent root linkMax shadow fails fuel s fdp fnp fromname tdp toname excl t
            s₂ := ⟨htarget, hsame, hcalls, hmoved⟩
        split at h
        · rename_i hmany
          cases h
          exact .tooManyLinks hgets hmany
        · rename_i hmany
          split at h
          · cases h
          · rename_i s₃ hattached
            have hre₃ := reattach_cases hattached hsame
            split at h
            · rename_i hattach
              cases h
              exact .attachFailed hgets hmany hre₃ hattach
            · rename_i hattach
              have hattach' : fails .attach = false := by simpa using hattach
              split at h
              · rename_i e herr
                cases h
                apply RenamedDir.linked hgets hmany hre₃ hattach'
                by_cases he : e = .enoent
                · subst he
                  exact .inr (.inr (diskfsLookup_enoent herr).2)
                · rcases diskfsLookup_error herr he with hdir | hfails | ⟨hdots, -⟩
                  · exact .inr (.inl hdir)
                  · exact .inl hfails
                  · exact absurd hdots hfrom
              · rename_i tmpnp hfound
                obtain ⟨-, hagain, hlookup⟩ := diskfsLookup_ok hfound
                split at h
                · cases h
                · rename_i htmp
                  split at h
                  · rename_i hremove
                    cases h
                    exact .removeFailed hgets hmany hre₃ hattach' hagain hremove
                  · cases h
                    exact .moved hgets hmany hre₃ hattach' (not_not.mp htmp ▸ hlookup)
      · exact absurd rfl hsome

theorem dirRename_cases {toShadow : Option Nat}
    (h : dirRename root linkMax shadow fails toShadow fuel s fdp fromname tdp toname excl =
      some (err, s')) :
    s' = s ∨ toShadow = shadow ∧
      (fromname ≠ dot ∧ fromname ≠ dotdot ∧ toname ≠ dot ∧ toname ≠ dotdot) ∧
      ∃ fnp, diskfsLookup root shadow fails .lookupSource s fdp fromname = .ok fnp ∧
        (s.isDir fnp = true ∧
            RenamedDir root linkMax shadow fails fuel s fdp fnp fromname tdp toname excl s' ∨
          s.isDir fnp = false ∧
            RenamedFile root linkMax shadow fails s fdp fnp fromname tdp toname excl s') := by
  unfold dirRename at h
  split at h
  · cases h
    exact .inl rfl
  · rename_i hnames
    push Not at hnames
    split at h
    · cases h
      exact .inl rfl
    · rename_i hshadow
      split at h
      · cases h
        exact .inl rfl
      · cases h
        exact .inl rfl
      · rename_i fnp hfound
        refine .inr ⟨not_not.mp hshadow, hnames, fnp, hfound, ?_⟩
        split at h
        · rename_i hdir
          exact .inl ⟨hdir, renameDir_cases hnames.2.1 h⟩
        · rename_i hdir
          exact .inr ⟨by simpa using hdir, renameFile_cases (Option.some.inj h)⟩

end Rename

end Hurd.DirOps
