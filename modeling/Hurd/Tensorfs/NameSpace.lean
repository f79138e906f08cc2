import Hurd.Framework.Run
import Hurd.Tensorfs.NameTree

/-!
# The name space over runs

Between any calls the nodes form a counted tree, and the lookup is a map from lists of names to
nodes that a call changes at one list of names.
-/

namespace Hurd.Tensorfs

open Function Option

variable {tfs t : Tfs} {path : Str} {alloc : Alloc}

/-- No node has changed. -/
structure Unchanged (tfs t : Tfs) : Prop where
  node : t.node = tfs.node
  root : t.root = tfs.root
  numNodes : t.numNodes = tfs.numNodes
  next : tfs.next ≤ t.next

namespace Unchanged

theorem refl (tfs : Tfs) : Unchanged tfs tfs := ⟨rfl, rfl, rfl, le_rfl⟩

variable (h : Unchanged tfs t)

include h

theorem child : t.child = tfs.child := by
  have hnode := h.node
  cases t
  cases tfs
  subst hnode
  rfl

theorem tree : t.tree = tfs.tree := by rw [Tfs.tree, Tfs.tree, h.child, h.root]

theorem ok (hok : tfs.Ok) : t.Ok where
  root := by
    rw [h.node, h.root]
    exact hok.root
  childOf := by
    rw [h.node]
    exact hok.childOf
  parentOf := by
    rw [h.node]
    exact hok.parentOf
  orphan := by
    rw [h.node, h.root]
    exact hok.orphan
  distinct := by
    intro a p hp
    have hname : t.nameOf = tfs.nameOf := by
      funext c
      simp only [Tfs.nameOf, h.node]
    rw [hname]
    exact hok.distinct a p (h.node ▸ hp)
  leaf := by
    rw [h.node]
    exact hok.leaf
  unused := by
    intro a ha
    rw [h.node]
    exact hok.unused a (h.next.trans ha)
  reached := by
    rw [h.node, h.tree]
    exact hok.reached
  finite := by
    rw [h.tree]
    exact hok.finite
  count := by rw [h.tree, h.numNodes, hok.count]

end Unchanged

theorem nodeDestroy_leaf {a : Nat} {n : Node} (fuel : Nat) (hn : tfs.node a = some n)
    (hleaf : n.children = []) : Tfs.nodeDestroy (fuel + 1) tfs a = some (tfs.setNode a none) := by
  rw [Tfs.nodeDestroy, hn, bind_some, hleaf]
  rfl

theorem unchanged_alloc (hs : Shape tfs) (n : Node) :
    Unchanged tfs ((tfs.alloc n).setNode tfs.next none) where
  node := by
    have hnone := hs.unused tfs.next le_rfl
    rw [Tfs.setNode, Tfs.alloc, Tfs.setNode]
    simp only [update_idem]
    rw [← hnone, update_eq_self]
  root := rfl
  numNodes := rfl
  next := Nat.le_succ _

theorem nodeAddChild_cases (alloc : Alloc) {parent child : Nat} {p c : Node}
    (hp : t.node parent = some p) (htype : p.type = .directory)
    (hc : t.node child = some c) (hne : child ≠ parent) :
    t.nodeAddChild alloc parent child = some (t, some .enomem) ∨
      ∃ capacity, t.nodeAddChild alloc parent child =
        some ((t.setNode parent
          (some { p with children := p.children ++ [child], childrenCapacity := capacity })).setNode
            child (some { c with parent := some parent }), none) := by
  rw [Tfs.nodeAddChild, hp, bind_some, if_neg (not_not.mpr htype)]
  dsimp only
  split
  · exact .inl rfl
  · right
    refine ⟨if p.childrenCapacity ≤ p.children.length then p.childrenCapacity * 2
      else p.childrenCapacity, ?_⟩
    simp only [Tfs.setNode, update_of_ne hne, hc, map_some]

theorem addNode_cases (hs : Shape tfs) (alloc : Alloc) {parent : Nat} {p : Node} (n : Node)
    (content : Option Nat) (hp : tfs.node parent = some p) (htype : p.type = .directory)
    (habsent : tfs.child parent n.name = none) (hleaf : n.children = []) :
    ∃ t e, tfs.addNode alloc parent n content = some (t, e) ∧
      ((∃ err, e = some err ∧ Unchanged tfs t) ∨
        e = none ∧ Attached tfs t parent p
          { n with contentSize := content.getD 0, parent := some parent }) := by
  let new : Node := { n with contentSize := content.getD 0 }
  have hnext : tfs.next ≠ parent := (hs.ne_next hp).symm
  have hnew : (tfs.alloc new).node tfs.next = some new := update_self ..
  have hold : (tfs.alloc new).node parent = some p := (update_of_ne hnext.symm ..).trans hp
  have hfree := nodeDestroy_leaf tfs.next hnew hleaf
  rw [Tfs.addNode]
  split
  · exact ⟨tfs, _, rfl, .inl ⟨_, rfl, .refl tfs⟩⟩
  · dsimp only
    split
    · exact ⟨_, _, congrArg (Option.map _) hfree, .inl ⟨_, rfl, unchanged_alloc hs new⟩⟩
    · rcases nodeAddChild_cases alloc hold htype hnew hnext with hfull | ⟨capacity, hadd⟩
      · refine ⟨(tfs.alloc new).setNode tfs.next none, some .enomem, ?_,
          .inl ⟨_, rfl, unchanged_alloc hs new⟩⟩
        rw [hfull, bind_some]
        exact congrArg (Option.map _) hfree
      · refine ⟨_, none, by rw [hadd]; rfl, .inr ⟨rfl, ?_⟩⟩
        exact {
          root := rfl
          next := rfl
          numNodes := rfl
          node_parent := hp
          type_parent := htype
          absent := habsent
          node_new := update_self ..
          parent_new := rfl
          children_new := hleaf
          grown := ⟨capacity, (update_of_ne hnext.symm ..).trans (update_self ..)⟩
          others := by
            intro a ha hap
            simp [Tfs.setNode, Tfs.alloc, update_of_ne ha, update_of_ne hap] }

theorem createNode_cases (hs : Shape tfs) (alloc : Alloc) (type : NodeType) (path : Str)
    (content : Option Nat) :
    ∃ t e, tfs.createNode alloc type path content = some (t, e) ∧
      ((∃ err, e = some err ∧ Unchanged tfs t) ∨
        e = none ∧ ∃ parent p n, Attached tfs t parent p n ∧
          follow tfs.child tfs.root (components (getParentPath path)) = some parent ∧
          n.name = getBasename path ∧ n.type = type ∧ n.contentSize = content.getD 0) := by
  rw [Tfs.createNode, hs.tensorfsLookup_eq, bind_some]
  cases hparent : follow tfs.child tfs.root (components (getParentPath path)) with
  | none => exact ⟨tfs, _, rfl, .inl ⟨_, rfl, .refl tfs⟩⟩
  | some parent =>
    obtain ⟨p, hp⟩ := hs.node_of_follow hparent
    dsimp only
    rw [hp, bind_some]
    split
    · exact ⟨tfs, _, rfl, .inl ⟨_, rfl, .refl tfs⟩⟩
    · rename_i htype
      rw [hs.nodeFindChild_eq hp, bind_some]
      cases hc : tfs.child parent (getBasename path) with
      | some c => exact ⟨tfs, _, rfl, .inl ⟨_, rfl, .refl tfs⟩⟩
      | none =>
        rw [if_neg (by simp)]
        obtain ⟨t, e, hadd, hcases⟩ := addNode_cases hs alloc
          (nodeCreate type (getBasename path) (p.scaleLevel + 1)) content hp
          (not_not.mp htype) hc rfl
        refine ⟨t, e, hadd, hcases.imp_right ?_⟩
        rintro ⟨he, hattached⟩
        exact ⟨he, parent, p, _, hattached, rfl, rfl, rfl, rfl⟩

/-- What a call to delete does: a leaf that the path leads to is taken out, or nothing changes.
The root is not taken out if the path leads to another node, or there is one below. -/
theorem tensorfsDelete_cases (hs : Shape tfs) (path : Str)
    (hroot : path = [slash] ∨ components path ≠ [] ∨
      ∃ r, tfs.node tfs.root = some r ∧ r.children ≠ []) :
    ∃ t e, tfs.tensorfsDelete path = some (t, e) ∧
      ((∃ err, e = some err ∧ Unchanged tfs t) ∨
        e = none ∧ ∃ a parent p n, Detached tfs t a parent p n ∧
          follow tfs.child tfs.root (components path) = some a) := by
  rw [Tfs.tensorfsDelete]
  split
  · exact ⟨tfs, _, rfl, .inl ⟨_, rfl, .refl tfs⟩⟩
  · rename_i hpath
    rw [hs.tensorfsLookup_eq, bind_some]
    cases ha : follow tfs.child tfs.root (components path) with
    | none => exact ⟨tfs, _, rfl, .inl ⟨_, rfl, .refl tfs⟩⟩
    | some a =>
      obtain ⟨n, hn⟩ := hs.node_of_follow ha
      dsimp only
      rw [hn, bind_some]
      split
      · exact ⟨tfs, _, rfl, .inl ⟨_, rfl, .refl tfs⟩⟩
      · rename_i hempty
        have hleaf : n.children = [] := by
          by_cases htype : n.type = .directory
          · have hlen : ¬ 0 < n.children.length := fun hpos => hempty ⟨htype, hpos⟩
            exact List.length_eq_zero_iff.mp (by omega)
          · exact hs.leaf a n hn htype
        cases hparent : n.parent with
        | none =>
          -- the root: the path leads to it, and it has no children
          obtain rfl := hs.orphan a n hn hparent
          have hnil : components path = [] := hs.isNameTree.follow_inj ha rfl
          rcases hroot with h₁ | h₁ | ⟨r, hr, h₁⟩
          · exact absurd h₁ hpath
          · exact absurd hnil h₁
          · obtain rfl : n = r := some.inj (hn.symm.trans hr)
            exact absurd hleaf h₁
        | some parent =>
          obtain ⟨p, hp, hmem⟩ := hs.parentOf a n parent hn hparent
          have hne : a ≠ parent := by
            rintro rfl
            obtain rfl : n = p := some.inj (hn.symm.trans hp)
            rw [hleaf] at hmem
            cases hmem
          obtain ⟨k, hk⟩ := hs.exists_next hn
          let t := tfs.setNode parent (some { p with children := p.children.erase a })
          have hn' : t.node a = some n := (update_of_ne hne ..).trans hn
          have hfree : Tfs.nodeDestroy t.next t a = some (t.setNode a none) := by
            have hk' : t.next = k + 1 := hk
            rw [hk']
            exact nodeDestroy_leaf k hn' hleaf
          have hleave : tfs.leaveParent a (some parent) = some t := by
            rw [Tfs.leaveParent, hp, map_some]
          rw [hleave, bind_some, hfree]
          refine ⟨_, none, rfl, .inr ⟨rfl, a, parent, p, n, ?_, rfl⟩⟩
          exact {
            root := rfl
            next := rfl
            numNodes := rfl
            node := hn
            childless := hleaf
            parent_eq := hparent
            node_parent := hp
            gone := update_self ..
            shrunk := (update_of_ne hne.symm ..).trans (update_self ..)
            others := by
              intro b hb hbp
              simp [t, Tfs.setNode, update_of_ne hb, update_of_ne hbp] }

inductive Op where
  | createFile (alloc : Alloc) (path : Str) (content : Bool) (contentSize : Nat)
  | createDirectory (alloc : Alloc) (path : Str)
  | delete (path : Str)

namespace Op

def apply (tfs : Tfs) : Op → Option (Tfs × Option Errno)
  | createFile alloc path content contentSize =>
      tfs.tensorfsCreateFile alloc path content contentSize
  | createDirectory alloc path => tfs.tensorfsCreateDirectory alloc path
  | delete path => tfs.tensorfsDelete path

def step (tfs : Tfs) (op : Op) : Option Tfs := (op.apply tfs).map Prod.fst

/-- The path, the type and the size of the node that a call is to create. -/
def creates : Op → Option (Str × NodeType × Nat)
  | createFile _ path content contentSize =>
      some (path, .file, if content = true then contentSize else 0)
  | createDirectory _ path => some (path, .directory, 0)
  | delete _ => none

/-- The call takes the node out of the tree. -/
def Removes (tfs : Tfs) (a : Nat) (op : Op) : Prop :=
  ∃ path t, op = .delete path ∧ tfs.tensorfsLookup path = some (some a) ∧
    tfs.tensorfsDelete path = some (t, none)

/-- The call does not delete the root: it is given `"/"` itself, or a path with a name after its
first character, or the root has children. -/
def KeepsRoot (tfs : Tfs) (op : Op) : Prop :=
  ∀ path, op = .delete path → path = [slash] ∨ components path ≠ [] ∨
    ∃ r, tfs.node tfs.root = some r ∧ r.children ≠ []

end Op

/-- A path whose last slash is followed by a name. -/
def NamesLast (path : Str) : Prop := slash ∈ path ∧ path.getLast? ≠ some slash

theorem apply_cases (hs : Shape tfs) (op : Op) (hroot : op.KeepsRoot tfs) :
    ∃ t e, op.apply tfs = some (t, e) ∧
      ((∃ err, e = some err ∧ Unchanged tfs t) ∨
        (e = none ∧ ∃ path type size parent p n, op.creates = some (path, type, size) ∧
          Attached tfs t parent p n ∧
          follow tfs.child tfs.root (components (getParentPath path)) = some parent ∧
          n.name = getBasename path ∧ n.type = type ∧ n.contentSize = size) ∨
        (e = none ∧ ∃ path a parent p n, op = .delete path ∧ Detached tfs t a parent p n ∧
          follow tfs.child tfs.root (components path) = some a)) := by
  cases op with
  | createFile alloc path content contentSize =>
    obtain ⟨t, e, happly, hcases⟩ := createNode_cases hs alloc .file path
      (if content = true ∧ 0 < contentSize then some contentSize else none)
    refine ⟨t, e, happly, hcases.imp_right ?_⟩
    rintro ⟨he, parent, p, n, hattached, hparent, hname, htype, hsize⟩
    refine .inl ⟨he, path, _, _, parent, p, n, rfl, hattached, hparent, hname, htype, ?_⟩
    rw [hsize]
    cases content <;> by_cases hpos : 0 < contentSize <;> simp [hpos]
    omega
  | createDirectory alloc path =>
    obtain ⟨t, e, happly, hcases⟩ := createNode_cases hs alloc .directory path none
    refine ⟨t, e, happly, hcases.imp_right ?_⟩
    rintro ⟨he, parent, p, n, hattached, hparent, hname, htype, hsize⟩
    exact .inl ⟨he, path, _, _, parent, p, n, rfl, hattached, hparent, hname, htype, hsize⟩
  | delete path =>
    obtain ⟨t, e, happly, hcases⟩ := tensorfsDelete_cases hs path (hroot path rfl)
    refine ⟨t, e, happly, hcases.imp_right ?_⟩
    rintro ⟨he, a, parent, p, n, hdetached, ha⟩
    exact .inr ⟨he, path, a, parent, p, n, rfl, hdetached, ha⟩

theorem Tfs.Ok.step (hok : tfs.Ok) {op : Op} (hroot : op.KeepsRoot tfs)
    (hstep : op.step tfs = some t) : t.Ok := by
  obtain ⟨t', e, happly, hcases⟩ := apply_cases hok.toShape op hroot
  obtain rfl : t' = t := by simpa [Op.step, happly] using hstep
  rcases hcases with ⟨_, -, hsame⟩ | ⟨-, _, _, _, parent, p, n, -, hattached, -⟩ |
    ⟨-, _, a, parent, p, n, -, hdetached, -⟩
  · exact hsame.ok hok
  · exact hattached.ok hok
  · exact hdetached.ok hok

theorem tensorfsCreate_node {a : Nat} {n : Node} (hn : tensorfsCreate.node a = some n) :
    a = 0 ∧ n = nodeCreate .directory [slash] 0 := by
  by_cases ha : a = 0
  · subst ha
    exact ⟨rfl, (some.inj hn).symm⟩
  · have hnone : tensorfsCreate.node a = none := by simp [tensorfsCreate, update_of_ne ha]
    rw [hnone] at hn
    cases hn

theorem tensorfsCreate_ok : tensorfsCreate.Ok := by
  have hshape : Shape tensorfsCreate := {
    root := ⟨_, rfl, rfl, rfl⟩
    childOf := by
      intro a p c hp hc
      obtain ⟨-, rfl⟩ := tensorfsCreate_node hp
      cases hc
    parentOf := by
      intro c n a hn ha
      obtain ⟨-, rfl⟩ := tensorfsCreate_node hn
      cases ha
    orphan := by
      intro c n hn _
      exact (tensorfsCreate_node hn).1
    distinct := by
      intro a p hp
      obtain ⟨-, rfl⟩ := tensorfsCreate_node hp
      exact List.nodup_nil
    leaf := by
      intro a n hn _
      obtain ⟨-, rfl⟩ := tensorfsCreate_node hn
      rfl
    unused := by
      intro a ha
      have hne : a ≠ 0 := Nat.ne_of_gt ha
      simp [tensorfsCreate, update_of_ne hne] }
  have htree : tensorfsCreate.tree = {0} := by
    ext a
    constructor
    · rintro ⟨names, ha⟩
      obtain ⟨n, hn⟩ := hshape.node_of_follow ha
      exact (tensorfsCreate_node hn).1
    · rintro rfl
      exact mem_followed_root
  exact {
    toShape := hshape
    reached := by
      intro a n hn
      rw [htree]
      exact (tensorfsCreate_node hn).1
    finite := htree ▸ Set.finite_singleton 0
    count := by rw [htree, Set.ncard_singleton]; rfl }

theorem lookup_kept (hok : tfs.Ok) {op : Op} (hroot : op.KeepsRoot tfs) {names : List Str} {a : Nat}
    (hkeep : ¬ op.Removes tfs a) (ha : follow tfs.child tfs.root names = some a)
    (hstep : op.step tfs = some t) : follow t.child t.root names = some a := by
  have hs := hok.toShape
  obtain ⟨t', e, happly, hcases⟩ := apply_cases hs op hroot
  obtain rfl : t' = t := by simpa [Op.step, happly] using hstep
  rcases hcases with ⟨_, -, hsame⟩ | ⟨-, path, _, _, parent, p, n, -, hattached, hparent, -⟩ |
    ⟨he, path, b, parent, p, n, rfl, hdetached, hb⟩
  · rw [hsame.child, hsame.root]
    exact ha
  · have hne : tfs.next ≠ tfs.root := by
      obtain ⟨r, hr, -⟩ := hs.root
      exact (hs.ne_next hr).symm
    have hg := hattached.grafted hs
    rw [hattached.root, hg.follow_eq hs.isNameTree hne hparent, if_neg, ha]
    rintro rfl
    rw [follow_concat, hparent, bind_some, hattached.absent] at ha
    cases ha
  · obtain ⟨ps, hps⟩ := hok.reached parent p hdetached.node_parent
    rw [hdetached.root, (hdetached.pruned hs).follow_eq hs.isNameTree hps, if_neg, ha]
    rintro rfl
    -- the path would be that of the node which is removed
    rw [follow_concat, hps, bind_some, hdetached.edge hs] at ha
    cases ha
    apply hkeep
    refine ⟨path, t', rfl, ?_, ?_⟩
    · rw [hs.tensorfsLookup_eq, hb]
    · rw [← he]
      exact happly

theorem created_iff (hok : tfs.Ok) {op : Op} {type : NodeType} {size : Nat}
    (hcreates : op.creates = some (path, type, size)) (happly : op.apply tfs = some (t, none)) :
    (follow t.child t.root (components path) = some tfs.next ↔ NamesLast path) ∧
      ∃ n, t.node tfs.next = some n ∧ n.type = type ∧ n.contentSize = size := by
  have hs := hok.toShape
  have hroot : op.KeepsRoot tfs := by
    rintro p rfl
    cases hcreates
  obtain ⟨t', e, happly', hcases⟩ := apply_cases hs op hroot
  obtain ⟨rfl, rfl⟩ : t' = t ∧ e = none := by simpa [happly] using happly'.symm
  rcases hcases with ⟨_, he, -⟩ |
    ⟨-, path', type', size', parent, p, n, hcreates', hattached, hparent, hname, htype, hsize⟩ |
    ⟨-, _, a, parent, p, n, rfl, -⟩
  · cases he
  · obtain ⟨rfl, rfl, rfl⟩ : path' = path ∧ type' = type ∧ size' = size := by
      simpa [hcreates] using hcreates'.symm
    refine ⟨?_, n, hattached.node_new, htype, hsize⟩
    have hne : tfs.next ≠ tfs.root := by
      obtain ⟨r, hr, -⟩ := hs.root
      exact (hs.ne_next hr).symm
    have hg := hattached.grafted hs
    rw [hattached.root, hg.follow_eq hs.isNameTree hne hparent, hname]
    constructor
    · intro hfound
      by_contra hnames
      have hshort : slash ∉ path' ∨ path'.getLast? = some slash := by
        by_contra hnot
        exact hnames ⟨not_not.mp (not_or.mp hnot).1, (not_or.mp hnot).2⟩
      -- the path leads to the parent
      have hsame := components_eq_parent hshort
      rw [if_neg (by simp [hsame]), hsame, hparent] at hfound
      have hp := hattached.node_parent
      rw [some.inj hfound] at hp
      exact hs.ne_next hp rfl
    · intro hnames
      rw [if_pos (components_eq hnames.1 hnames.2)]
  · cases hcreates

/-- In a run that does not delete the root, siblings have different names, the nodes of the tree are
counted and no freed memory is used. A path leads to the same node until that is deleted, and a
path under which a node has been created leads to that node exactly if it ends in a name. -/
theorem name_space (h : Reach Op.step (fun tfs op => op.KeepsRoot tfs) tensorfsCreate tfs) :
    tfs.SiblingsDistinct ∧ tfs.tree.ncard = tfs.numNodes ∧
      (∀ op : Op, op.KeepsRoot tfs → (op.apply tfs).isSome = true) ∧
      (∀ (op : Op) (path : Str) (type : NodeType) (size : Nat) (t : Tfs),
        op.creates = some (path, type, size) → op.apply tfs = some (t, none) →
          tfs.node tfs.next = none ∧
          (t.tensorfsLookup path = some (some tfs.next) ↔ NamesLast path) ∧
          (NamesLast path → t.tensorfsExists path = some true ∧
            ∃ level, t.tensorfsStat path = some (.ok ⟨type, size, level⟩))) ∧
      ∀ (path : Str) (a : Nat) (t : Tfs), tfs.tensorfsLookup path = some (some a) →
        Reach Op.step (fun tfs op => op.KeepsRoot tfs ∧ ¬ op.Removes tfs a) tfs t →
        t.tensorfsLookup path = some (some a) := by
  have hok : tfs.Ok :=
    h.invariant Tfs.Ok tensorfsCreate_ok fun _ _ _ hok hroot hstep => hok.step hroot hstep
  refine ⟨hok.distinct, hok.count, ?_, ?_, ?_⟩
  · intro op hroot
    obtain ⟨t, e, happly, -⟩ := apply_cases hok.toShape op hroot
    rw [happly]
    rfl
  · intro op path type size t hcreates happly
    have hroot : op.KeepsRoot tfs := by
      rintro p rfl
      cases hcreates
    have htok : t.Ok := hok.step hroot (by rw [Op.step, happly]; rfl)
    obtain ⟨hiff, n, hn, htype, hsize⟩ := created_iff hok hcreates happly
    have hlookup := htok.tensorfsLookup_eq path
    refine ⟨hok.unused _ le_rfl, ?_, ?_⟩
    · rw [hlookup, Option.some.injEq]
      exact hiff
    · intro hnames
      have hfound := hlookup.trans (congrArg some (hiff.mpr hnames))
      constructor
      · rw [Tfs.tensorfsExists, hfound]
        rfl
      · refine ⟨n.scaleLevel, ?_⟩
        rw [Tfs.tensorfsStat, hfound, bind_some]
        dsimp only
        rw [hn, map_some, htype, hsize]
  · intro path a t hpath hrun
    have hkept : t.Ok ∧ follow t.child t.root (components path) = some a := by
      refine hrun.invariant (fun t => t.Ok ∧ follow t.child t.root (components path) = some a)
        ⟨hok, ?_⟩ ?_
      · rw [hok.tensorfsLookup_eq] at hpath
        exact some.inj hpath
      · intro u op v hu hop hstep
        exact ⟨hu.1.step hop.1 hstep, lookup_kept hu.1 hop.1 hop.2 hu.2 hstep⟩
    rw [hkept.1.tensorfsLookup_eq, hkept.2]

section Examples

/-- Every allocation succeeds. -/
def memory : Alloc := ⟨true, true, true⟩

def pathD : Str := [47, 100]

/-- `"/d/f"` -/
def pathF : Str := [47, 100, 47, 102]

theorem name_space_file :
    ∃ s t, runLabels Op.step tensorfsCreate [.createDirectory memory pathD] = some s ∧
      (Op.createFile memory pathF true 4).apply s = some (t, none) ∧
      t.tensorfsLookup pathF = some (some 2) := by
  have hok : AdmitsLabels Op.step (fun tfs op => op.KeepsRoot tfs) tensorfsCreate
      [.createDirectory memory pathD] := by
    refine ⟨?_, ?_⟩
    · intro path hpath
      cases hpath
    · exact trivial
  refine ⟨_, _, rfl, rfl, ?_⟩
  have hreach := Reach.start.labels _ hok rfl
  have hcreated := (name_space hreach).2.2.2.1 (.createFile memory pathF true 4) pathF .file 4 _
    rfl rfl
  exact hcreated.2.1.mpr ⟨by decide, by decide⟩

/-- `"/d/"` -/
def pathSlash : Str := [47, 100, 47]

/-- With a slash at its end the path of a directory can be created once more. There is then a file
without a name in the directory, and the path still leads to the directory. -/
theorem trailing_slash_not_found :
    ∃ s t, runLabels Op.step tensorfsCreate [.createDirectory memory pathD] = some s ∧
      (Op.createFile memory pathSlash true 4).apply s = some (t, none) ∧
      t.tensorfsLookup pathSlash ≠ some (some s.next) ∧
      t.tensorfsStat pathSlash = some (.ok ⟨.directory, 0, 1⟩) :=
  ⟨_, _, rfl, rfl, by decide, by decide⟩

end Examples

end Hurd.Tensorfs
