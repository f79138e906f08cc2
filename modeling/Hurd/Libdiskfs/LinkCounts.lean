import Hurd.Libdiskfs.DirOutcomes

/-!
# Link counts

Every operation changes the link counts one by one, between calls that may fail. Here the changes of
`st_nlink` are followed through each operation, together with the entries they are for.
-/

namespace Hurd.DirOps

open Function

variable {root : Nat} {linkMax : Int} {shadow : Option Nat} {fails : Call → Bool}
variable {s s' : Fs} {d n dp pdp : Nat} {x : Name}

/-- A directory that has an entry has one for itself. -/
def Fs.Dotted (s : Fs) : Prop := ∀ d x, s.lookup d x ≠ none → s.lookup d dot = some d

/-- A file system in order: each node has as many links as entries refer to it. -/
structure LinkInv (s : Fs) : Prop where
  slack : ∀ n, s.slack n = 0
  keys : s.Keys
  dotted : s.Dotted

theorem LinkInv.nlink_eq (h : LinkInv s) (n : Nat) : s.nlink n = s.refs n := by
  have hn := h.slack n
  unfold Fs.slack at hn
  omega

theorem Fs.Dotted.of_lookup (h : s.Dotted)
    (hdot : ∀ d, s.lookup d dot = some d → s'.lookup d dot = some d)
    (hnew : ∀ d x, s'.lookup d x ≠ none → s.lookup d x ≠ none ∨ s.lookup d dot = some d) :
    s'.Dotted := by
  intro d x hx
  apply hdot
  rcases hnew d x hx with hold | hin
  · exact h d x hold
  · exact hin

theorem Fs.Dotted.attach {t : Target} (h : s.Dotted) (hk : s.Keys) (hd : s.lookup d dot = some d)
    (hx : x ≠ dot) : (s.attach d n x t).Dotted := by
  apply h.of_lookup
  · intro d' hd'
    rw [lookup_attach hk, if_neg (fun heq => hx heq.2.symm), hd']
  · intro d' x' hx'
    rw [lookup_attach hk] at hx'
    split at hx'
    · rename_i heq
      exact .inr (heq.1 ▸ hd)
    · exact .inl hx'

theorem Fs.Dotted.remove (h : s.Dotted) (hk : s.Keys) (hx : x ≠ dot) : (s.remove d x).Dotted := by
  apply h.of_lookup
  · intro d' hd'
    rw [hk.lookup_remove, if_neg (fun heq => hx heq.2.symm), hd']
  · intro d' x' hx'
    rw [hk.lookup_remove] at hx'
    split at hx'
    · exact absurd rfl hx'
    · exact .inl hx'

/-- Either the directory keeps its entry for itself, or it loses the one for its parent too. -/
def ClearsWhole (root : Nat) (shadow : Option Nat) (fails : Call → Bool) (dp : Nat) : Prop :=
  fails .clearLookupDot = true ∨ fails .clearRemoveDot = true ∨
    fails .clearLookupDotdot = false ∧ fails .clearRemoveDotdot = false ∧ shadow ≠ some dp ∧
      dp ≠ root

/-- The links that a directory without other entries has and is are taken back with the entries. -/
structure Kept (s s' : Fs) : Prop where
  slack : ∀ n, s'.slack n = s.slack n
  keys : s'.Keys
  dotted : s.Dotted → s'.Dotted

theorem Fs.Dotted.clear (h : s.Dotted) (hk : s.Keys) : (s.clear dp pdp).Dotted := by
  intro d x hx
  rw [hk.lookup_clear] at hx ⊢
  by_cases hd : d = dp
  · simp [hd] at hx
  · rw [if_neg hd] at hx ⊢
    exact h d x hx

theorem kept_cleared (hk : s.Keys) (hempty : ∀ x, s.lookup dp x ≠ none → x = dot ∨ x = dotdot)
    (hclear : ClearsWhole root shadow fails dp) (h : Cleared root shadow fails s dp pdp s') :
    Kept s s' := by
  refine ⟨h.slack hk hempty, h.keys hk, ?_⟩
  intro hdotted
  cases h with
  | kept _ => exact hdotted
  | half _ hlookup hremove hfail =>
    rcases hclear with hf | hf | ⟨h₁, h₂, h₃, h₄⟩
    · rw [hlookup] at hf
      cases hf
    · rw [hremove] at hf
      cases hf
    · simp [h₁, h₂, h₃, h₄] at hfail
  | whole _ _ _ => exact hdotted.clear hk

theorem LinkInv.attach {t : Target} (h : LinkInv s) (hat : t.At s d n x) (ht : t ≠ .same)
    (hd : s.lookup d dot = some d) (hx : x ≠ dot) :
    LinkInv ((s.addLinks n 1).attach d n x t) where
  slack m := by
    rw [slack_attach (s := s.addLinks n 1) hat ht, Fs.slack_addLinks, h.slack m]
    split_ifs <;> omega
  keys := keys_attach (s := s.addLinks n 1) h.keys hat ht
  dotted := Fs.Dotted.attach (s := s.addLinks n 1) h.dotted h.keys hd hx

theorem LinkInv.detach (h : LinkInv s) (hlookup : s.lookup d x = some n) (hx : x ≠ dot) :
    LinkInv ((s.remove d x).addLinks n (-1)) where
  slack m := by
    rw [Fs.slack_addLinks, Fs.slack_remove hlookup, h.slack m]
    split_ifs <;> omega
  keys := h.keys.remove d x
  dotted := h.dotted.remove h.keys hx

theorem LinkInv.kept (h : LinkInv s) (hk : Kept s s') : LinkInv s' where
  slack n := (hk.slack n).trans (h.slack n)
  keys := hk.keys
  dotted := hk.dotted h.dotted

theorem ne_dot_of_newLink {np dnp : Nat} {name : Name} {excl : Bool} {t : Target}
    (h : newLink root linkMax shadow fails s np dnp name excl = .ok t) (ht : t ≠ .same)
    (hd : s.lookup dnp dot = some dnp) : name ≠ dot := by
  obtain ⟨hdir, hat, hover⟩ := newLink_ok h
  rintro rfl
  cases t with
  | same => exact ht rfl
  | nothing =>
    have hnone : s.lookup dnp dot = none := hat
    rw [hd] at hnone
    cases hnone
  | another tnp =>
    have htnp := hat.1
    rw [hd, Option.some.injEq] at htnp
    have hfile := hover tnp rfl
    rw [← htnp, hdir] at hfile
    cases hfile

/-- The directory has not been removed: its entry for itself is there. -/
def Fs.InUse (s : Fs) (d : Nat) : Prop := s.lookup d dot = some d

/-- Of the old name of what is renamed: it is not found again, or it is removed. -/
def RemovesSource (fails : Call → Bool) : Prop :=
  fails .lookupAgain = true ∨ fails .remove = false

/-- The rename of a directory makes its new name in a directory in use; none of the calls fails that
rewrite the parent, make the new name and remove the old one; and a directory that it replaces is
cleared as a whole or keeps its entry for itself. -/
def RenameDirKeeps (root : Nat) (linkMax : Int) (shadow : Option Nat) (fails : Call → Bool)
    (fuel : Nat) (s : Fs) (fdp fnp : Nat) (fromname : Name) (tdp : Nat) (toname : Name)
    (excl : Bool) : Prop :=
  ∀ t, renameDirTarget root linkMax shadow fails fuel s fdp fnp fromname tdp toname excl =
      some (.ok t) → t ≠ .same →
    (fdp ≠ tdp → fails .lookupParent = false ∧ fails .rewriteParent = false ∧
      shadow ≠ some fnp ∧ fnp ≠ root) ∧
    fails .attach = false ∧ s.InUse tdp ∧ RemovesSource fails ∧
    ∀ tnp, t = .another tnp → ClearsWhole root shadow fails tnp

/-- The rename of a file makes its new name, and removes the old one when it finds it. -/
def RenameFileKeeps (root : Nat) (linkMax : Int) (shadow : Option Nat) (fails : Call → Bool)
    (s : Fs) (fnp tdp : Nat) (toname : Name) (excl : Bool) : Prop :=
  ∀ t, newLink root linkMax shadow fails s fnp tdp toname excl = .ok t → t ≠ .same →
    fails .attach = false ∧ s.InUse tdp ∧ RemovesSource fails

/-- The calls that fail leave the link counts right. -/
def Event.KeepsLinks (root : Nat) (linkMax : Int) (s : Fs) : Event → Prop
  | .link shadow fails np dnp name excl =>
      s.isDir np = false → ∀ t, newLink root linkMax shadow fails s np dnp name excl = .ok t →
        t ≠ .same → fails .attach = false ∧ s.InUse dnp
  | .mkdir shadow fails dnp name _ =>
      MkdirEnters root linkMax shadow fails s dnp name →
        if fails .attach then
          fails .clearLookupDot = false ∧ fails .clearRemoveDot = false ∧
            fails .clearLookupDotdot = false ∧ fails .clearRemoveDotdot = false
        else s.InUse dnp
  | .rmdir shadow fails dnp name =>
      ∀ np, rmdirTarget root shadow fails s dnp name = .ok np → fails .remove = false →
        ClearsWhole root shadow fails np
  | .rename shadow _ fails fuel fdp fromname tdp toname excl =>
      ∀ fnp, diskfsLookup root shadow fails .lookupSource s fdp fromname = .ok fnp →
        if s.isDir fnp then
          RenameDirKeeps root linkMax shadow fails fuel s fdp fnp fromname tdp toname excl
        else RenameFileKeeps root linkMax shadow fails s fnp tdp toname excl
  | .drop _ => True

theorem linkInv_dirLink {np dnp : Nat} {name : Name} {excl : Bool} (h : LinkInv s)
    (hkeep : (Event.link shadow fails np dnp name excl).KeepsLinks root linkMax s) :
    LinkInv (dirLink root linkMax shadow fails s np dnp name excl).2 := by
  unfold dirLink
  split
  · exact h
  · rename_i hfile
    split
    · exact h
    · exact h
    · rename_i t hsame htarget
      obtain ⟨hattach, huse⟩ := hkeep (by simpa using hfile) t htarget hsame
      dsimp only
      rw [if_neg (by simp [hattach])]
      exact h.attach (newLink_ok htarget).2.1 hsame huse (ne_dot_of_newLink htarget hsame huse)

theorem Fs.Dotted.newDir {new dnp : Nat} (h : s.Dotted) (hfree : s.Free new) :
    (s.newDir new dnp).Dotted := by
  intro d x hx
  rw [hfree.lookup_newDir] at hx ⊢
  by_cases hd : d = new
  · simp [hd, dot_ne_dotdot]
  · rw [if_neg hd] at hx ⊢
    exact h d x hx

theorem linkInv_dirMkdir {dnp new : Nat} {name : Name} (h : LinkInv s)
    (hok : (Event.mkdir shadow fails dnp name new).Enabled root s)
    (hkeep : (Event.mkdir shadow fails dnp name new).KeepsLinks root linkMax s)
    (hmade : Made root linkMax shadow fails s dnp name new s') : LinkInv s' := by
  obtain ⟨hfree, hnew, hroot, hshadow⟩ := hok
  cases hmade with
  | unchanged => exact h
  | entered henters hattach =>
    have huse := hkeep henters
    rw [if_neg (by simp [hattach])] at huse
    have hname := (diskfsLookup_enoent henters.absent).2
    have hdnp := henters.ne hnew
    have hkeys := hfree.keys_newDir h.keys dnp
    have hx : name ≠ dot := by
      rintro rfl
      rw [huse] at hname
      cases hname
    have hnone : (s.newDir new dnp).lookup dnp name = none := by
      rw [hfree.lookup_newDir, if_neg hdnp, hname]
    have huse' : (s.newDir new dnp).lookup dnp dot = some dnp := by
      rw [hfree.lookup_newDir, if_neg hdnp, huse]
    refine ⟨?_, hkeys.enter hnone new,
      (h.dotted.newDir hfree).attach (t := .nothing) hkeys huse' hx⟩
    intro n
    rw [Fs.slack_enter, hfree.slack_newDir hdnp, h.slack n]
    split_ifs <;> omega
  | @undone s₂ henters hattach hcleared =>
    have hdnp := henters.ne hnew
    have hclear := hkeep henters
    rw [if_pos hattach] at hclear
    obtain ⟨h₁, h₂, h₃, h₄⟩ := hclear
    have hkeys := hfree.keys_newDir h.keys dnp
    cases hcleared with
    | kept hwhy =>
      have hisDir : (s.newDir new dnp).isDir new = true := by simp [Fs.newDir]
      simp [hisDir, h₁, h₂] at hwhy
    | half _ _ _ hwhy => simp [h₃, h₄, hshadow, hroot] at hwhy
    | whole _ hdot hdotdot =>
      have hslack := hkeys.slack_clear hfree.newDir_empty hdot hdotdot
      refine ⟨?_, hkeys.clear, (h.dotted.newDir hfree).clear hkeys⟩
      intro n
      have hn := (hslack n).trans (hfree.slack_newDir hdnp n)
      by_cases hnew' : n = new
      · -- the link for the name, which was not made
        subst hnew'
        rw [if_pos rfl] at hn
        simp only [Fs.slack, Fs.clear, Fs.newDir, Fs.setLinks, Fs.addLinks, Fs.enter, Fs.remove,
          Fs.truncate, Fs.refs, update_self, update_of_ne hdnp.symm] at hn ⊢
        omega
      · rw [Fs.slack_setLinks_of_ne (Ne.symm hnew'), hn, if_neg hnew', h.slack n]

theorem linkInv_dirRmdir {dnp : Nat} {name : Name} (h : LinkInv s)
    (hkeep : (Event.rmdir shadow fails dnp name).KeepsLinks root linkMax s)
    (hremoved : Removed root shadow fails s dnp name s') : LinkInv s' := by
  cases hremoved with
  | unchanged => exact h
  | @removed np _ htarget hremove hcleared =>
    obtain ⟨hlookup, hne, -, hempty⟩ := rmdirTarget_ok htarget
    have hx : name ≠ dot := by
      rintro rfl
      have hdot := h.dotted dnp dot (by simp [hlookup])
      rw [hlookup, Option.some.injEq] at hdot
      exact hne hdot.symm
    have hdetached := h.detach hlookup hx
    refine hdetached.kept (kept_cleared hdetached.keys ?_ (hkeep np htarget hremove) hcleared)
    intro x hx
    rw [Fs.lookup_addLinks, h.keys.lookup_remove, if_neg (fun heq => hne heq.1.symm)] at hx
    exact Fs.dirempty_lookup hempty hx

section Rename

variable {fdp fnp tdp fuel : Nat} {fromname toname : Name} {excl : Bool} {t : Target}

theorem linkInv_renameFile (h : LinkInv s) (hfrom : fromname ≠ dot) (hto : toname ≠ dot)
    (hkeep : RenameFileKeeps root linkMax shadow fails s fnp tdp toname excl)
    (hrenamed : RenamedFile root linkMax shadow fails s fdp fnp fromname tdp toname excl s') :
    LinkInv s' := by
  cases hrenamed with
  | unchanged => exact h
  | attachFailed htarget hsame hattach =>
    have hkeep' := (hkeep _ htarget hsame).1
    rw [hattach] at hkeep'
    cases hkeep'
  | linked htarget hsame _ =>
    exact h.attach (newLink_ok htarget).2.1 hsame (hkeep _ htarget hsame).2.1 hto
  | removeFailed htarget hsame hagain hremove =>
    rcases (hkeep _ htarget hsame).2.2 with hf | hf
    · rw [hagain] at hf
      cases hf
    · rw [hremove] at hf
      cases hf
  | moved htarget hsame _ hlookup =>
    have hattached := h.attach (newLink_ok htarget).2.1 hsame (hkeep _ htarget hsame).2.1 hto
    exact hattached.detach hlookup hfrom

theorem LinkInv.reparented {s₂ : Fs} (h : LinkInv s) (hre : Reparented s fdp fnp tdp s₂) :
    LinkInv s₂ := by
  refine ⟨fun n => (hre.slack n).trans (h.slack n), hre.keys h.keys, ?_⟩
  cases hre with
  | stay => exact h.dotted
  | move _ hup =>
    have hdot : s.lookup fnp dot = some fnp := h.dotted fnp dotdot (by simp [hup])
    exact Fs.Dotted.attach (s := s.addLinks tdp 1) (t := .another fdp) h.dotted h.keys hdot
      dot_ne_dotdot.symm

theorem LinkInv.reattached {s₂ s₃ : Fs} (h : LinkInv s) (hto : toname ≠ dot ∧ toname ≠ dotdot)
    (htarget : renameDirTarget root linkMax shadow fails fuel s fdp fnp fromname tdp toname excl =
      some (.ok t)) (hsame : t ≠ .same) (hre : Reparented s fdp fnp tdp s₂)
    (hattach : fails .attach = false) (huse : s.InUse tdp)
    (hclear : ∀ tnp, t = .another tnp → ClearsWhole root shadow fails tnp)
    (hre₃ : Reattached root shadow fails (s₂.addLinks fnp 1) fnp tdp toname t s₃) :
    LinkInv s₃ := by
  obtain ⟨-, -, -, -, hat, hover⟩ := renameDirTarget_ok htarget hsame
  have huse₂ : s₂.lookup tdp dot = some tdp := by
    rw [hre.lookup h.keys, if_neg (fun heq => dot_ne_dotdot heq.2.2)]
    exact huse
  have hat₂ : t.At s₂ tdp fnp toname := by
    have hat' := hre.at h.keys hto.2 hat
    cases t <;> exact hat'
  have hattached := (h.reparented hre).attach hat₂ hsame huse₂ hto.1
  cases hre₃ with
  | nothing =>
    rw [if_neg (by simp [hattach])]
    exact hattached
  | @another tnp _ hcleared =>
    rw [if_neg (by simp [hattach])] at hcleared
    obtain ⟨-, hlookup⟩ := lookup_replaced hre h.keys hto hat (hover tnp rfl).2
    refine hattached.kept (kept_cleared hattached.keys ?_ (hclear tnp rfl) hcleared)
    intro x hx
    rw [hlookup] at hx
    exact Fs.dirempty_lookup (hover tnp rfl).2 hx

theorem linkInv_renameDir (h : LinkInv s) (hdir : s.isDir fnp = true) (hfrom : fromname ≠ dot)
    (hto : toname ≠ dot ∧ toname ≠ dotdot)
    (hkeep : RenameDirKeeps root linkMax shadow fails fuel s fdp fnp fromname tdp toname excl)
    (hrenamed : RenamedDir root linkMax shadow fails fuel s fdp fnp fromname tdp toname excl s') :
    LinkInv s' := by
  cases hrenamed with
  | unchanged => exact h
  | parentFailed htarget hsame hne hwhy =>
    obtain ⟨h₁, h₂, h₃, h₄⟩ := (hkeep _ htarget hsame).1 hne
    simp [hdir, h₁, h₂, h₃, h₄] at hwhy
  | tooManyLinks hgets _ => exact h.reparented hgets.parent
  | attachFailed hgets _ _ hattach =>
    have hkeep' := (hkeep _ hgets.target hgets.ne_same).2.1
    rw [hattach] at hkeep'
    cases hkeep'
  | linked hgets _ hre₃ hattach _ =>
    obtain ⟨-, -, huse, -, hclear⟩ := hkeep _ hgets.target hgets.ne_same
    exact h.reattached hto hgets.target hgets.ne_same hgets.parent hattach huse hclear hre₃
  | removeFailed hgets _ _ _ hagain hremove =>
    rcases (hkeep _ hgets.target hgets.ne_same).2.2.2.1 with hf | hf
    · rw [hagain] at hf
      cases hf
    · rw [hremove] at hf
      cases hf
  | moved hgets _ hre₃ hattach hlookup =>
    obtain ⟨-, -, huse, -, hclear⟩ := hkeep _ hgets.target hgets.ne_same
    have hreattached :=
      h.reattached hto hgets.target hgets.ne_same hgets.parent hattach huse hclear hre₃
    exact hreattached.detach hlookup hfrom

end Rename

theorem linkInv_discard (h : LinkInv s) (hn : s.nlink n = 0) : LinkInv (s.discard n) := by
  have hnone : ∀ x, s.lookup n x = none := by
    intro x
    by_contra hx
    have hdot := h.dotted n x hx
    have hrefs := Fs.one_le_refs hdot
    have hcount := h.nlink_eq n
    omega
  have hsame : (s.entries.filter fun e => e.dir ≠ n) = s.entries := Fs.filter_dir_eq_self hnone
  have hlinks : update s.nlink n 0 = s.nlink := by rw [← hn, update_eq_self]
  unfold Fs.discard
  rw [hsame, hlinks]
  exact ⟨h.slack, h.keys, h.dotted⟩

theorem linkInv_step {e : Event} (h : LinkInv s) (hok : e.Enabled root s)
    (hkeep : e.KeepsLinks root linkMax s) (hs : step root linkMax s e = some s') : LinkInv s' := by
  cases e with
  | link shadow fails np dnp name excl =>
    cases hs
    exact linkInv_dirLink h hkeep
  | mkdir shadow fails dnp name new =>
    obtain ⟨⟨err, s₂⟩, hmade, rfl⟩ := Option.map_eq_some_iff.mp hs
    exact linkInv_dirMkdir h hok hkeep (dirMkdir_cases hok.1 hok.2.1 hmade)
  | rmdir shadow fails dnp name =>
    obtain ⟨⟨err, s₂⟩, hremoved, rfl⟩ := Option.map_eq_some_iff.mp hs
    have hkeep' : (Event.rmdir shadow fails dnp name).KeepsLinks root linkMax s := hkeep
    exact linkInv_dirRmdir h hkeep' (dirRmdir_cases hremoved)
  | rename shadow toShadow fails fuel fdp fromname tdp toname excl =>
    obtain ⟨⟨err, s₂⟩, hrenamed, rfl⟩ := Option.map_eq_some_iff.mp hs
    rcases dirRename_cases hrenamed with hsame | ⟨-, hnames, fnp, hfound, hwhat⟩
    · rw [hsame]
      exact h
    · have hkeep' := hkeep fnp hfound
      rcases hwhat with ⟨hdir, hrenamed⟩ | ⟨hfile, hrenamed⟩
      · rw [if_pos hdir] at hkeep'
        exact linkInv_renameDir h hdir hnames.1 ⟨hnames.2.2.1, hnames.2.2.2⟩ hkeep' hrenamed
      · rw [if_neg (by simp [hfile])] at hkeep'
        exact linkInv_renameFile h hnames.1 hnames.2.2.1 hkeep' hrenamed
  | drop n =>
    cases hs
    exact linkInv_discard h hok.1

/-- In every run of links, renames and makings and removals of directories in which each request
keeps its links, every node has at each point as many links as directory entries refer to it. -/
theorem nlink_eq_refs {init : Fs} (hinit : LinkInv init)
    (h : Reach (step root linkMax) (fun s e => e.Enabled root s ∧ e.KeepsLinks root linkMax s)
      init s) (n : Nat) : s.nlink n = s.refs n := by
  have hinv : LinkInv s :=
    h.invariant LinkInv hinit fun _ _ _ hinv hok hs => linkInv_step hinv hok.1 hok.2 hs
  exact hinv.nlink_eq n

theorem linkInv_ofEntries {entries : List DirEntry} {dirs : List Nat}
    (hkeys : (entries.map fun e => (e.dir, e.name)).Nodup)
    (hdots : ∀ e ∈ entries, (Fs.ofEntries entries dirs).lookup e.dir dot = some e.dir) :
    LinkInv (Fs.ofEntries entries dirs) where
  slack n := by simp [Fs.slack, Fs.refs, Fs.ofEntries]
  keys := hkeys
  dotted d x hx := by
    cases hn : (Fs.ofEntries entries dirs).lookup d x with
    | none => exact absurd hn hx
    | some n =>
      obtain ⟨l₁, l₂, hl, -⟩ := Fs.lookup_eq_some.mp hn
      exact hdots ⟨d, x, n⟩ (by rw [show entries = _ from hl]; simp)

/-- A root directory with a file `a`, the node 3. -/
def oneFile : Fs := .ofEntries [⟨2, dot, 2⟩, ⟨2, dotdot, 2⟩, ⟨2, [97], 3⟩] [2]

theorem nlink_eq_refs_mkdir :
    ∃ s, step 2 32000 rootOnly (.mkdir none (fun _ => false) 2 [97] 3) = some s ∧
      s.nlink 2 = 3 ∧ s.nlink 2 = s.refs 2 := by
  have hinit : LinkInv rootOnly := linkInv_ofEntries (by decide) (by decide)
  have hfree : rootOnly.Free 3 := ⟨by decide, by decide⟩
  have hreach : ∃ s, step 2 32000 rootOnly (.mkdir none (fun _ => false) 2 [97] 3) = some s ∧
      s.nlink 2 = 3 ∧ Reach (step 2 32000)
        (fun s e => e.Enabled 2 s ∧ e.KeepsLinks 2 32000 s) rootOnly s := by
    refine ⟨_, rfl, by decide, .step (.mkdir none (fun _ => false) 2 [97] 3) .start ?_ rfl⟩
    exact ⟨⟨hfree, by decide, by decide, by decide⟩,
      fun _ => (rfl : rootOnly.lookup 2 dot = some 2)⟩
  obtain ⟨s, hs, hthree, hreach⟩ := hreach
  exact ⟨s, hs, hthree, nlink_eq_refs hinit hreach 2⟩

/-- `ln a b` where `diskfs_direnter` finds no space: the file has two links and one name. -/
theorem nlink_ne_refs_link :
    LinkInv oneFile ∧ ¬ ∀ s, Reach (step 2 32000) (fun s e => e.Enabled 2 s) oneFile s →
      ∀ n, s.nlink n = s.refs n := by
  refine ⟨linkInv_ofEntries (by decide) (by decide), ?_⟩
  intro hclaim
  have hlink := hclaim _ (.step (.link none (fun c => c = .attach) 3 2 [98] false) .start trivial
    rfl) 3
  exact absurd hlink (by decide)

end Hurd.DirOps
