import Hurd.Framework.Climb
import Hurd.Libdiskfs.DirOutcomes

/-!
# The hierarchy of directories

Directories that have a name are in the directory that their own entry `..` says, and lead up to
the root. Here it is shown that links and the making and removing of directories keep it so.
-/

namespace Hurd.DirOps

open Relation Function Option

variable {root : Nat} {linkMax : Int} {shadow : Option Nat} {fails : Call → Bool}
variable {s s' : Fs} {d n p : Nat} {x y : Name}

/-- The directory `d` has the name `x` in `p`. -/
structure Fs.Names (s : Fs) (p : Nat) (x : Name) (d : Nat) : Prop where
  lookup : s.lookup p x = some d
  ne_dot : x ≠ dot
  ne_dotdot : x ≠ dotdot
  isDir : s.isDir d = true

/-- The directory has a name. -/
def Fs.Linked (s : Fs) (d : Nat) : Prop := ∃ p x, s.Names p x d

def Fs.Up (s : Fs) (d p : Nat) : Prop := s.lookup d dotdot = some p

/-- A tree of directories: each has one name, in its parent, and leads up to the root. The other
fields say that no directory with a name is in danger of being cleared or freed. -/
structure TreeInv (root : Nat) (s : Fs) : Prop where
  keys : s.Keys
  rootDir : s.isDir root = true
  rootUp : s.lookup root dotdot = some root
  parent : ∀ {p x d}, s.Names p x d → s.lookup d dotdot = some p
  unique : ∀ {p x y d}, s.Names p x d → s.Names p y d → x = y
  ne_root : ∀ {p x d}, s.Names p x d → d ≠ root
  above : ∀ {p x d}, s.Names p x d → p = root ∨ s.Linked p
  climbs : ∀ {d}, s.Linked d → ReflTransGen s.Up d root
  dots : ∀ {d n}, s.lookup d dot = some n → n = d ∨ ¬ s.Linked n
  slack : ∀ {d}, d = root ∨ s.Linked d → 0 ≤ s.slack d

theorem up_rightUnique (s : Fs) : Relator.RightUnique s.Up := by
  intro d p q hp hq
  exact some.inj (hp.symm.trans hq)

namespace TreeInv

variable (h : TreeInv root s)

include h

theorem isDir (hd : d = root ∨ s.Linked d) : s.isDir d = true := by
  rcases hd with rfl | ⟨p, x, hp⟩
  · exact h.rootDir
  · exact hp.isDir

theorem climbs' (hd : d = root ∨ s.Linked d) : ReflTransGen s.Up d root := by
  rcases hd with rfl | hlinked
  · exact .refl
  · exact h.climbs hlinked

theorem names_eq {p q : Nat} (hp : s.Names p x d) (hq : s.Names q y d) : q = p ∧ y = x := by
  have hqp : q = p := some.inj ((h.parent hq).symm.trans (h.parent hp))
  subst hqp
  exact ⟨rfl, h.unique hq hp⟩

theorem not_above_root (hd : d ≠ root) : ¬ ReflTransGen s.Up root d := by
  intro hclimb
  apply hd
  apply eq_of_climb_self _ hclimb
  intro b hb
  exact some.inj (hb.symm.trans h.rootUp)

theorem names_ne (hp : s.Names p x d) : p ≠ d := by
  rintro rfl
  have hclimb := h.climbs ⟨p, x, hp⟩
  apply h.ne_root hp
  refine (eq_of_climb_self ?_ hclimb).symm
  intro b hb
  exact some.inj (hb.symm.trans (h.parent hp))

theorem not_circular (hd : s.Linked d) : ¬ TransGen s.Up d d := by
  intro hcircle
  obtain ⟨p, x, hp⟩ := hd
  apply h.not_above_root (h.ne_root hp)
  exact climb_back (up_rightUnique s) hcircle (h.climbs ⟨p, x, hp⟩)

end TreeInv

/-- Names of directories go at most, from the leaves of the tree; what stays in it keeps its
parent and loses no links. -/
structure Shrinks (root : Nat) (s s' : Fs) : Prop where
  keys : s'.Keys
  rootDir : s'.isDir root = true
  names : ∀ {p x d}, s'.Names p x d → s.Names p x d
  above : ∀ {p x d}, s'.Names p x d → s.Linked p → s'.Linked p
  up : ∀ {d}, d = root ∨ s'.Linked d → s'.lookup d dotdot = s.lookup d dotdot
  dots : ∀ {d n}, s'.lookup d dot = some n → s.lookup d dot = some n ∨ n = d ∨ ¬ s.Linked n
  slack : ∀ {d}, d = root ∨ s'.Linked d → s.slack d ≤ s'.slack d

theorem Shrinks.linked (hs : Shrinks root s s') (hd : s'.Linked d) : s.Linked d := by
  obtain ⟨p, x, hp⟩ := hd
  exact ⟨p, x, hs.names hp⟩

theorem TreeInv.shrink (h : TreeInv root s) (hs : Shrinks root s s') : TreeInv root s' where
  keys := hs.keys
  rootDir := hs.rootDir
  rootUp := (hs.up (.inl rfl)).trans h.rootUp
  parent hp := (hs.up (.inr ⟨_, _, hp⟩)).trans (h.parent (hs.names hp))
  unique hp hq := h.unique (hs.names hp) (hs.names hq)
  ne_root hp := h.ne_root (hs.names hp)
  above hp := (h.above (hs.names hp)).imp id (hs.above hp)
  climbs {d} hd := by
    apply climb_transfer s'.Linked _ (h.climbs (hs.linked hd)) (.inl hd)
    rintro a b ⟨p, x, hp⟩ - hab
    have hbp : b = p := some.inj (hab.symm.trans (h.parent (hs.names hp)))
    subst hbp
    refine .inr ⟨(hs.up (.inr ⟨b, x, hp⟩)).trans hab, ?_⟩
    rcases h.above (hs.names hp) with hroot | hlinked
    · exact .inr hroot
    · exact .inl (hs.above hp hlinked)
  dots {d n} hn := by
    rcases hs.dots hn with hold | hself | hnot
    · exact (h.dots hold).imp id fun hnot hlinked => hnot (hs.linked hlinked)
    · exact .inl hself
    · exact .inr fun hlinked => hnot (hs.linked hlinked)
  slack {d} hd := by
    have hold := h.slack (hd.imp id hs.linked)
    have hle := hs.slack hd
    omega

/-- Entries for directories stay as they are. -/
structure FilesOnly (s s' : Fs) : Prop where
  keys : s'.Keys
  isDir : s'.isDir = s.isDir
  lookup : ∀ {d x n}, s.isDir n = true → (s'.lookup d x = some n ↔ s.lookup d x = some n)
  slack : ∀ {n}, s.isDir n = true → s.slack n ≤ s'.slack n

theorem FilesOnly.names_iff (hf : FilesOnly s s') : s'.Names p x d ↔ s.Names p x d := by
  constructor
  · intro hp
    have hdir : s.isDir d = true := hf.isDir ▸ hp.isDir
    exact ⟨(hf.lookup hdir).mp hp.lookup, hp.ne_dot, hp.ne_dotdot, hdir⟩
  · intro hp
    exact ⟨(hf.lookup hp.isDir).mpr hp.lookup, hp.ne_dot, hp.ne_dotdot, hf.isDir ▸ hp.isDir⟩

theorem FilesOnly.linked_iff (hf : FilesOnly s s') : s'.Linked d ↔ s.Linked d := by
  simp only [Fs.Linked, hf.names_iff]

theorem TreeInv.files (h : TreeInv root s) (hf : FilesOnly s s') : TreeInv root s' := by
  -- the parent of a directory of the tree is a directory
  have hup : ∀ {d}, d = root ∨ s.Linked d → s'.lookup d dotdot = s.lookup d dotdot := by
    rintro d (rfl | ⟨p, x, hp⟩)
    · rw [h.rootUp, hf.lookup h.rootDir, h.rootUp]
    · rw [h.parent hp, hf.lookup (h.isDir (h.above hp)), h.parent hp]
  refine h.shrink
    { keys := hf.keys
      rootDir := hf.isDir ▸ h.rootDir
      names := hf.names_iff.mp
      above := fun _ hlinked => hf.linked_iff.mpr hlinked
      up := fun hd => hup (hd.imp id hf.linked_iff.mp)
      dots := ?_
      slack := fun hd => hf.slack (h.isDir (hd.imp id hf.linked_iff.mp)) }
  intro d n hn
  by_cases hdir : s.isDir n = true
  · exact .inl ((hf.lookup hdir).mp hn)
  · right
    right
    rintro ⟨p, x, hp⟩
    exact hdir hp.isDir

theorem filesOnly_attach {t : Target} (hk : s.Keys) (hfile : s.isDir n = false)
    (hat : t.At s d n x) (ht : t ≠ .same) (hover : ∀ tnp, t = .another tnp → s.isDir tnp = false) :
    FilesOnly s ((s.addLinks n 1).attach d n x t) := by
  have hk₁ : (s.addLinks n 1).Keys := hk
  have hat₁ : t.At (s.addLinks n 1) d n x := by cases t <;> exact hat
  refine ⟨keys_attach hk₁ hat₁ ht, by simp, ?_, ?_⟩
  · intro d' x' m hm
    rw [lookup_attach hk₁, Fs.lookup_addLinks]
    split
    · rename_i heq
      obtain ⟨rfl, rfl⟩ := heq
      constructor
      · intro hmn
        cases hmn
        rw [hfile] at hm
        cases hm
      · intro hold
        cases t with
        | same => exact absurd rfl ht
        | nothing =>
          have hnone : s.lookup d' x' = none := hat
          rw [hnone] at hold
          cases hold
        | another tnp =>
          rw [hat.1, Option.some.injEq] at hold
          rw [← hold, hover tnp rfl] at hm
          cases hm
    · rfl
  · intro m hm
    have hne : n ≠ m := by
      rintro rfl
      rw [hfile] at hm
      cases hm
    rw [slack_attach hat₁ ht, Fs.slack_addLinks]
    simp [hne]

theorem filesOnly_addLinks (hk : s.Keys) (hfile : s.isDir n = false) (k : Int) :
    FilesOnly s (s.addLinks n k) := by
  refine ⟨hk, rfl, fun _ => Iff.rfl, ?_⟩
  intro m hm
  have hne : n ≠ m := by
    rintro rfl
    rw [hfile] at hm
    cases hm
  rw [Fs.slack_addLinks]
  simp [hne]

theorem filesOnly_detach (hk : s.Keys) (hfile : s.isDir n = false) (hx : s.lookup d x = some n) :
    FilesOnly s ((s.remove d x).addLinks n (-1)) := by
  refine ⟨hk.remove d x, rfl, ?_, ?_⟩
  · intro d' x' m hm
    rw [Fs.lookup_addLinks, hk.lookup_remove]
    split
    · rename_i heq
      obtain ⟨rfl, rfl⟩ := heq
      rw [hx]
      constructor
      · intro hnone
        cases hnone
      · intro hnm
        cases hnm
        rw [hfile] at hm
        cases hm
    · rfl
  · intro m hm
    rw [Fs.slack_addLinks, Fs.slack_remove hx]
    split_ifs <;> omega

theorem treeInv_dirLink {np dnp : Nat} {name : Name} {excl : Bool} (h : TreeInv root s) :
    TreeInv root (dirLink root linkMax shadow fails s np dnp name excl).2 := by
  unfold dirLink
  split
  · exact h
  · rename_i hfile
    have hfile' : s.isDir np = false := by simpa using hfile
    split
    · exact h
    · exact h
    · rename_i t hsame htarget
      obtain ⟨-, hat, hover⟩ := newLink_ok htarget
      dsimp only
      split
      · exact h.files (filesOnly_addLinks h.keys hfile' 1)
      · exact h.files (filesOnly_attach h.keys hfile' hat hsame hover)

theorem treeInv_renameFile {fdp fnp tdp : Nat} {fromname toname : Name} {excl : Bool}
    (h : TreeInv root s) (hfile : s.isDir fnp = false)
    (hrenamed : RenamedFile root linkMax shadow fails s fdp fnp fromname tdp toname excl s') :
    TreeInv root s' := by
  cases hrenamed with
  | unchanged => exact h
  | attachFailed _ _ _ => exact h.files (filesOnly_addLinks h.keys hfile 1)
  | linked htarget hsame _ =>
    obtain ⟨-, hat, hover⟩ := newLink_ok htarget
    exact h.files (filesOnly_attach h.keys hfile hat hsame hover)
  | removeFailed htarget hsame _ _ =>
    obtain ⟨-, hat, hover⟩ := newLink_ok htarget
    have hattach := filesOnly_attach h.keys hfile hat hsame hover
    exact (h.files hattach).files
      (filesOnly_addLinks hattach.keys (by rw [hattach.isDir, hfile]) (-1))
  | moved htarget hsame _ hlookup =>
    obtain ⟨-, hat, hover⟩ := newLink_ok htarget
    have hattach := filesOnly_attach h.keys hfile hat hsame hover
    exact (h.files hattach).files
      (filesOnly_detach hattach.keys (by rw [hattach.isDir, hfile]) hlookup)

theorem Fs.Names.not_empty {q : Nat} (hp : s.Names p x d)
    (hempty : ∀ x, s.lookup q x ≠ none → x = dot ∨ x = dotdot) : p ≠ q := by
  rintro rfl
  rcases hempty x (by simp [hp.lookup]) with hdot | hdotdot
  · exact hp.ne_dot hdot
  · exact hp.ne_dotdot hdotdot

section Rmdir

variable {dnp np : Nat} {name : Name} {s₂ : Fs}

theorem up_removed (h : TreeInv root s)
    (htarget : rmdirTarget root shadow fails s dnp name = .ok np)
    (hcleared : Cleared root shadow fails ((s.remove dnp name).addLinks np (-1)) np dnp s₂)
    (hnp : np = root ∨ ∃ q y, s.Names q y np ∧ ¬ (q = dnp ∧ y = name)) :
    s₂.lookup np dotdot = s.lookup np dotdot := by
  obtain ⟨hlookup, hne, hdir, hempty⟩ := rmdirTarget_ok htarget
  have hk₁ : ((s.remove dnp name).addLinks np (-1)).Keys := h.keys.remove dnp name
  have hold : ((s.remove dnp name).addLinks np (-1)).lookup np dotdot = s.lookup np dotdot := by
    rw [Fs.lookup_addLinks, h.keys.lookup_remove, if_neg (fun heq => hne heq.1.symm)]
  cases hcleared with
  | kept _ => exact hold
  | half _ _ _ _ =>
    rw [Fs.lookup_addLinks, hk₁.lookup_remove, if_neg (fun heq => dot_ne_dotdot heq.2.symm), hold]
  | whole hroot _ hdotdot =>
    exfalso
    obtain ⟨q, y, hq, hother⟩ := hnp.resolve_left hroot
    have hparent := h.parent hq
    rw [hk₁.lookup_remove, if_neg (fun heq => dot_ne_dotdot heq.2.symm), hold, hparent,
      Option.some.injEq] at hdotdot
    subst hdotdot
    -- its name is not the one removed, which then is no proper name
    by_cases hdot : name = dot
    · subst hdot
      rcases h.dots hlookup with hself | hnot
      · exact hne hself.symm
      · exact hnot ⟨q, y, hq⟩
    · by_cases hdd : name = dotdot
      · subst hdd
        have hqroot : q ≠ root := by
          rintro rfl
          rw [h.rootUp, Option.some.injEq] at hlookup
          exact hne hlookup
        obtain ⟨r, z, hr⟩ := (h.above hq).resolve_left hqroot
        have hrnp : r = np := some.inj ((h.parent hr).symm.trans hlookup)
        exact hr.not_empty (fun x hx => Fs.dirempty_lookup hempty hx) hrnp
      · have hname : s.Names q name np := ⟨hlookup, hdot, hdd, hdir⟩
        exact hother ⟨rfl, h.unique hq hname⟩

theorem treeInv_dirRmdir (h : TreeInv root s)
    (hremoved : Removed root shadow fails s dnp name s') : TreeInv root s' := by
  cases hremoved with
  | unchanged => exact h
  | @removed np s₂ htarget _ hcleared =>
    obtain ⟨hlookup, hne, hdir, hempty⟩ := rmdirTarget_ok htarget
    have hk₁ : ((s.remove dnp name).addLinks np (-1)).Keys := h.keys.remove dnp name
    have hempty' : ∀ x, s.lookup np x ≠ none → x = dot ∨ x = dotdot :=
      fun x hx => Fs.dirempty_lookup hempty hx
    have hlookup₁ : ∀ d x, ((s.remove dnp name).addLinks np (-1)).lookup d x =
        if d = dnp ∧ x = name then none else s.lookup d x := by
      intro d x
      rw [Fs.lookup_addLinks, h.keys.lookup_remove]
    have hsub : ∀ {d x n}, s'.lookup d x = some n →
        s.lookup d x = some n ∧ ¬ (d = dnp ∧ x = name) := by
      intro d x n hn
      have hn₁ := hcleared.lookup_imp hk₁ hn
      rw [hlookup₁] at hn₁
      split at hn₁
      · cases hn₁
      · rename_i hkey
        exact ⟨hn₁, hkey⟩
    have hnames : ∀ {p x d}, s'.Names p x d → s.Names p x d ∧ ¬ (p = dnp ∧ x = name) := by
      intro p x d hp
      obtain ⟨hold, hkey⟩ := hsub hp.lookup
      exact ⟨⟨hold, hp.ne_dot, hp.ne_dotdot, hcleared.isDir ▸ hp.isDir⟩, hkey⟩
    refine h.shrink
      { keys := hcleared.keys hk₁
        rootDir := hcleared.isDir ▸ h.rootDir
        names := fun hp => (hnames hp).1
        above := ?_
        up := ?_
        dots := fun hn => .inl (hsub hn).1
        slack := ?_ }
    · rintro p x d hp ⟨q, y, hq⟩
      have hpnp := (hnames hp).1.not_empty hempty'
      have hqnp := hq.not_empty hempty'
      refine ⟨q, y, ?_, hq.ne_dot, hq.ne_dotdot, hcleared.isDir ▸ hq.isDir⟩
      rw [hcleared.lookup_of_ne hk₁ hqnp, hlookup₁, if_neg, hq.lookup]
      rintro ⟨rfl, rfl⟩
      exact hpnp (some.inj (hq.lookup.symm.trans hlookup))
    · intro d hd
      by_cases hdnp : d = np
      · subst hdnp
        apply up_removed h htarget hcleared
        rcases hd with hroot | ⟨q, y, hq⟩
        · exact .inl hroot
        · exact .inr ⟨q, y, hnames hq⟩
      · rw [hcleared.lookup_of_ne hk₁ hdnp, hlookup₁]
        apply if_neg
        -- the parent of a directory in the tree is not empty
        rintro ⟨rfl, rfl⟩
        rcases hd with rfl | ⟨q, y, hq⟩
        · rw [h.rootUp, Option.some.injEq] at hlookup
          exact hne hlookup
        · have hqnp : q = np :=
            some.inj ((h.parent (hnames hq).1).symm.trans hlookup)
          exact (hnames hq).1.not_empty hempty' hqnp
    · intro d _
      have hslack := hcleared.slack hk₁ (fun x hx => hempty' x fun hnone => hx (by
        rw [hlookup₁, hnone]
        simp)) d
      rw [hslack, Fs.slack_addLinks, Fs.slack_remove hlookup]
      split_ifs <;> omega

end Rmdir

theorem treeInv_discard (h : TreeInv root s) (hn : s.nlink n = 0) (hroot : n ≠ root) :
    TreeInv root (s.discard n) := by
  have hnot : ¬ s.Linked n := by
    rintro ⟨p, x, hp⟩
    have hrefs := Fs.one_le_refs hp.lookup
    have hslack := h.slack (.inr ⟨p, x, hp⟩)
    unfold Fs.slack at hslack
    omega
  have hlookup : ∀ d x, (s.discard n).lookup d x = if d = n then none else s.lookup d x :=
    fun d x => Fs.lookup_filter_dir
  have hnames : ∀ {p x d}, (s.discard n).Names p x d ↔ s.Names p x d := by
    intro p x d
    constructor
    · intro hp
      have hold := hp.lookup
      rw [hlookup] at hold
      split at hold
      · cases hold
      · refine ⟨hold, hp.ne_dot, hp.ne_dotdot, ?_⟩
        have hdir := hp.isDir
        by_cases hd : d = n
        · subst hd
          simp [Fs.discard] at hdir
        · simpa [Fs.discard, hd] using hdir
    · intro hp
      have hpn : p ≠ n := by
        rintro rfl
        rcases h.above hp with hp | hp
        · exact hroot hp
        · exact hnot hp
      have hdn : d ≠ n := by
        rintro rfl
        exact hnot ⟨p, x, hp⟩
      refine ⟨?_, hp.ne_dot, hp.ne_dotdot, ?_⟩
      · rw [hlookup, if_neg hpn, hp.lookup]
      · simpa [Fs.discard, hdn] using hp.isDir
  have hne : ∀ {d}, d = root ∨ (s.discard n).Linked d → d ≠ n := by
    rintro d (rfl | ⟨p, x, hp⟩)
    · exact hroot.symm
    · rintro rfl
      exact hnot ⟨p, x, hnames.mp hp⟩
  refine h.shrink
    { keys := h.keys.filter _
      rootDir := ?_
      names := hnames.mp
      above := by
        rintro p x d - ⟨q, y, hq⟩
        exact ⟨q, y, hnames.mpr hq⟩
      up := fun hd => by rw [hlookup, if_neg (hne hd)]
      dots := ?_
      slack := ?_ }
  · simpa [Fs.discard, hroot.symm] using h.rootDir
  · intro d m hm
    rw [hlookup] at hm
    split at hm
    · cases hm
    · exact .inl hm
  · intro d hd
    have hle : (s.discard n).refs d ≤ s.refs d :=
      List.Sublist.countP_le List.filter_sublist
    have hnlink : (s.discard n).nlink d = s.nlink d := by
      simp [Fs.discard, hne hd]
    unfold Fs.slack
    omega

section Mkdir

variable {dnp new : Nat} {name : Name}

theorem shrinks_undone {s₂ : Fs} (h : TreeInv root s) (hfree : s.Free new) (hroot : new ≠ root)
    (hdnp : dnp ≠ new) (hcleared : Cleared root shadow fails (s.newDir new dnp) new dnp s₂) :
    Shrinks root s (s₂.setLinks new 0) := by
  have hk := hfree.keys_newDir h.keys dnp
  have hisDir : (s₂.setLinks new 0).isDir = update s.isDir new true := by
    rw [Fs.isDir_setLinks, hcleared.isDir, Fs.isDir_newDir]
  have hlookup : ∀ {d x}, d ≠ new → (s₂.setLinks new 0).lookup d x = s.lookup d x := by
    intro d x hd
    rw [Fs.lookup_setLinks, hcleared.lookup_of_ne hk hd, hfree.lookup_newDir, if_neg hd]
  have hself : ∀ {x n}, (s₂.setLinks new 0).lookup new x = some n →
      x = dotdot ∨ x = dot ∧ n = new := by
    intro x n hn
    have hnew := hcleared.lookup_imp hk hn
    rw [hfree.lookup_newDir, if_pos rfl] at hnew
    split at hnew
    · rename_i hx
      exact .inl hx
    · split at hnew
      · rename_i hx
        exact .inr ⟨hx, (some.inj hnew).symm⟩
      · cases hnew
  have hnames : ∀ {p x d}, (s₂.setLinks new 0).Names p x d ↔ s.Names p x d := by
    intro p x d
    constructor
    · intro hp
      have hpne : p ≠ new := by
        rintro rfl
        rcases hself hp.lookup with hx | ⟨hx, -⟩
        · exact hp.ne_dotdot hx
        · exact hp.ne_dot hx
      have hold := hp.lookup
      rw [hlookup hpne] at hold
      have hdne : d ≠ new := by
        rintro rfl
        exact hfree.lookup_ne hold
      have hdir := hp.isDir
      rw [hisDir, update_of_ne hdne] at hdir
      exact ⟨hold, hp.ne_dot, hp.ne_dotdot, hdir⟩
    · intro hp
      have hpne : p ≠ new := by
        rintro rfl
        exact absurd hp.lookup (by simp [hfree.lookup])
      have hdne : d ≠ new := by
        rintro rfl
        exact hfree.lookup_ne hp.lookup
      refine ⟨(hlookup hpne).trans hp.lookup, hp.ne_dot, hp.ne_dotdot, ?_⟩
      rw [hisDir, update_of_ne hdne, hp.isDir]
  have hne : ∀ {d}, d = root ∨ (s₂.setLinks new 0).Linked d → d ≠ new := by
    rintro d (rfl | ⟨p, x, hp⟩)
    · exact hroot.symm
    · rintro rfl
      exact hfree.lookup_ne (hnames.mp hp).lookup
  exact
    { keys := hcleared.keys hk
      rootDir := by rw [hisDir, update_of_ne hroot.symm, h.rootDir]
      names := hnames.mp
      above := by
        rintro p x d - ⟨q, y, hq⟩
        exact ⟨q, y, hnames.mpr hq⟩
      up := fun hd => hlookup (hne hd)
      dots := by
        intro d n hn
        by_cases hd : d = new
        · subst hd
          rcases hself hn with hx | ⟨-, hx⟩
          · exact absurd hx dot_ne_dotdot
          · exact .inr (.inl hx)
        · exact .inl ((hlookup hd).symm.trans hn)
      slack := by
        intro d hd
        have hslack := hcleared.slack hk hfree.newDir_empty d
        rw [hfree.slack_newDir hdnp, if_neg (hne hd)] at hslack
        rw [Fs.slack_setLinks_of_ne (hne hd).symm]
        omega }

theorem treeInv_entered (h : TreeInv root s) (hfree : s.Free new) (hroot : new ≠ root)
    (hdnp : dnp ≠ new) (hname : s.lookup dnp name = none) (htree : dnp = root ∨ s.Linked dnp) :
    TreeInv root ((s.newDir new dnp).enter dnp new name) := by
  have hk := hfree.keys_newDir h.keys dnp
  have hlookup : ∀ d x, ((s.newDir new dnp).enter dnp new name).lookup d x =
      if d = dnp ∧ x = name then some new
      else if d = new then (if x = dotdot then some dnp else if x = dot then some new else none)
      else s.lookup d x := by
    intro d x
    rw [Fs.lookup_enter, hfree.lookup_newDir]
  have hname' : name ≠ dotdot := by
    rintro rfl
    rcases htree with rfl | ⟨p, x, hp⟩
    · rw [h.rootUp] at hname
      cases hname
    · rw [h.parent hp] at hname
      cases hname
  -- a name is the new one, or one that was there
  have hnames : ∀ {p x d}, ((s.newDir new dnp).enter dnp new name).Names p x d →
      (p = dnp ∧ x = name ∧ d = new) ∨ s.Names p x d ∧ d ≠ new := by
    intro p x d hp
    have hx := hp.lookup
    rw [hlookup] at hx
    split at hx
    · rename_i heq
      exact .inl ⟨heq.1, heq.2, (some.inj hx).symm⟩
    · split at hx
      · rw [if_neg hp.ne_dotdot, if_neg hp.ne_dot] at hx
        cases hx
      · have hdne : d ≠ new := by
          rintro rfl
          exact hfree.lookup_ne hx
        have hdir := hp.isDir
        rw [Fs.isDir_enter, Fs.isDir_newDir, update_of_ne hdne] at hdir
        exact .inr ⟨⟨hx, hp.ne_dot, hp.ne_dotdot, hdir⟩, hdne⟩
  have hkeep : ∀ {p x d}, s.Names p x d →
      ((s.newDir new dnp).enter dnp new name).Names p x d := by
    intro p x d hp
    have hpne : p ≠ new := by
      rintro rfl
      exact absurd hp.lookup (by simp [hfree.lookup])
    have hdne : d ≠ new := by
      rintro rfl
      exact hfree.lookup_ne hp.lookup
    refine ⟨?_, hp.ne_dot, hp.ne_dotdot, ?_⟩
    · rw [hlookup, if_neg, if_neg hpne, hp.lookup]
      rintro ⟨rfl, rfl⟩
      rw [hp.lookup] at hname
      cases hname
    · rw [Fs.isDir_enter, Fs.isDir_newDir, update_of_ne hdne, hp.isDir]
  have hup : ∀ {d}, d ≠ new → ((s.newDir new dnp).enter dnp new name).lookup d dotdot =
      s.lookup d dotdot := by
    intro d hd
    rw [hlookup, if_neg (fun heq => hname' heq.2.symm), if_neg hd]
  have hupnew : ((s.newDir new dnp).enter dnp new name).lookup new dotdot = some dnp := by
    rw [hlookup, if_neg (fun heq => hname' heq.2.symm), if_pos rfl, if_pos rfl]
  have hclimb : ∀ {d}, ReflTransGen s.Up d root →
      ReflTransGen ((s.newDir new dnp).enter dnp new name).Up d root := by
    intro d hd
    refine ReflTransGen.mono ?_ _ _ hd
    intro a b hab
    have hane : a ≠ new := by
      rintro rfl
      exact absurd hab (by simp [Fs.Up, hfree.lookup])
    exact (hup hane).trans hab
  have hslack : ∀ {d}, s.slack d ≤ ((s.newDir new dnp).enter dnp new name).slack d := by
    intro d
    rw [Fs.slack_enter, hfree.slack_newDir hdnp]
    by_cases hd : d = new
    · rw [hd, hfree.slack]
      simp
    · simp [hd, Ne.symm hd]
  exact
    { keys := by
        apply hk.enter
        rw [hfree.lookup_newDir, if_neg hdnp, hname]
      rootDir := by
        rw [Fs.isDir_enter, Fs.isDir_newDir, update_of_ne hroot.symm, h.rootDir]
      rootUp := (hup hroot.symm).trans h.rootUp
      parent := by
        intro p x d hp
        rcases hnames hp with ⟨rfl, rfl, rfl⟩ | ⟨hold, hdne⟩
        · exact hupnew
        · exact (hup hdne).trans (h.parent hold)
      unique := by
        intro p x y d hp hq
        rcases hnames hp with ⟨-, rfl, rfl⟩ | ⟨hold, hdne⟩
        · rcases hnames hq with ⟨-, rfl, -⟩ | ⟨-, hdne⟩
          · rfl
          · exact absurd rfl hdne
        · rcases hnames hq with ⟨-, -, rfl⟩ | ⟨hold', -⟩
          · exact absurd rfl hdne
          · exact h.unique hold hold'
      ne_root := by
        intro p x d hp
        rcases hnames hp with ⟨-, -, rfl⟩ | ⟨hold, -⟩
        · exact hroot
        · exact h.ne_root hold
      above := by
        have hlinked : ∀ {d}, s.Linked d →
            ((s.newDir new dnp).enter dnp new name).Linked d := by
          rintro d ⟨q, y, hq⟩
          exact ⟨q, y, hkeep hq⟩
        intro p x d hp
        rcases hnames hp with ⟨rfl, -, -⟩ | ⟨hold, -⟩
        · exact htree.imp id hlinked
        · exact (h.above hold).imp id hlinked
      climbs := by
        rintro d ⟨p, x, hp⟩
        rcases hnames hp with ⟨-, -, rfl⟩ | ⟨hold, -⟩
        · exact .head hupnew (hclimb (h.climbs' htree))
        · exact hclimb (h.climbs ⟨p, x, hold⟩)
      dots := by
        intro d n hn
        rw [hlookup] at hn
        split at hn
        · rename_i heq
          right
          rintro ⟨p, x, hp⟩
          rcases hnames hp with ⟨-, rfl, -⟩ | ⟨-, hne⟩
          · exact hp.ne_dot heq.2.symm
          · exact hne (some.inj hn).symm
        · split at hn
          · rename_i hd
            rw [if_neg dot_ne_dotdot, if_pos rfl, Option.some.injEq] at hn
            exact .inl (hn.symm.trans hd.symm)
          · refine (h.dots hn).imp id ?_
            rintro hnot ⟨p, x, hp⟩
            rcases hnames hp with ⟨-, -, rfl⟩ | ⟨hold, -⟩
            · exact hfree.lookup_ne hn
            · exact hnot ⟨p, x, hold⟩
      slack := by
        intro d hd
        have hold : 0 ≤ s.slack d := by
          rcases hd with rfl | ⟨p, x, hp⟩
          · exact h.slack (.inl rfl)
          · rcases hnames hp with ⟨-, -, rfl⟩ | ⟨hold, -⟩
            · exact Int.le_of_eq hfree.slack.symm
            · exact h.slack (.inr ⟨p, x, hold⟩)
        have hle := hslack (d := d)
        omega }

theorem treeInv_dirMkdir (h : TreeInv root s)
    (hok : (Event.mkdir shadow fails dnp name new).Enabled root s)
    (htree : MkdirEnters root linkMax shadow fails s dnp name → fails .attach = false →
      dnp = root ∨ s.Linked dnp)
    (hmade : Made root linkMax shadow fails s dnp name new s') : TreeInv root s' := by
  obtain ⟨hfree, hnew, hroot, -⟩ := hok
  cases hmade with
  | unchanged => exact h
  | entered henters hattach =>
    have hname := (diskfsLookup_enoent henters.absent).2
    exact treeInv_entered h hfree hroot (henters.ne hnew) hname (htree henters hattach)
  | undone henters _ hcleared =>
    exact h.shrink (shrinks_undone h hfree hroot (henters.ne hnew) hcleared)

end Mkdir

end Hurd.DirOps
