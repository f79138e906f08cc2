import Hurd.Framework.NameTree
import Hurd.Tensorfs.Node

/-!
# The tree of nodes

What holds of the nodes in memory between two calls, and what the lookup of a path then finds. The
nodes form a tree whose edges bear the names of the children.
-/

namespace Hurd.Tensorfs

open List Option

variable {tfs t : Tfs} {path : Str}

namespace Tfs

def nameOf (tfs : Tfs) (c : Nat) : Option Str := (tfs.node c).map Node.name

def child (tfs : Tfs) (a : Nat) (name : Str) : Option Nat :=
  (tfs.node a).bind fun p => p.children.find? fun c => tfs.nameOf c = some name

/-- The nodes that can be reached from the root. -/
def tree (tfs : Tfs) : Set Nat := followed tfs.child tfs.root

/-- The children of a node have different names. -/
def SiblingsDistinct (tfs : Tfs) : Prop :=
  ∀ a p, tfs.node a = some p → (p.children.map tfs.nameOf).Nodup

end Tfs

/-- What the nodes tell of each other. -/
structure Shape (tfs : Tfs) : Prop where
  root : ∃ r, tfs.node tfs.root = some r ∧ r.type = .directory ∧ r.parent = none
  childOf : ∀ a p c, tfs.node a = some p → c ∈ p.children →
    ∃ n, tfs.node c = some n ∧ n.parent = some a
  parentOf : ∀ c n a, tfs.node c = some n → n.parent = some a →
    ∃ p, tfs.node a = some p ∧ c ∈ p.children
  orphan : ∀ c n, tfs.node c = some n → n.parent = none → c = tfs.root
  distinct : tfs.SiblingsDistinct
  leaf : ∀ a n, tfs.node a = some n → n.type ≠ .directory → n.children = []
  unused : ∀ a, tfs.next ≤ a → tfs.node a = none

/-- The nodes form a tree from the root, and they are counted. -/
structure Tfs.Ok (tfs : Tfs) : Prop extends Shape tfs where
  reached : ∀ a n, tfs.node a = some n → a ∈ tfs.tree
  finite : tfs.tree.Finite
  count : tfs.tree.ncard = tfs.numNodes

namespace Shape

variable (h : Shape tfs)

include h

theorem child_eq_some_iff {a c : Nat} {name : Str} :
    tfs.child a name = some c ↔
      ∃ p, tfs.node a = some p ∧ c ∈ p.children ∧ tfs.nameOf c = some name := by
  rw [Tfs.child, bind_eq_some_iff]
  constructor
  · rintro ⟨p, hp, hfind⟩
    exact ⟨p, hp, mem_of_find?_eq_some hfind, by simpa using List.find?_some hfind⟩
  · rintro ⟨p, hp, hc, hname⟩
    refine ⟨p, hp, ?_⟩
    cases hfind : p.children.find? fun c => tfs.nameOf c = some name with
    | none => exact absurd hname (by simpa using List.find?_eq_none.mp hfind c hc)
    | some c' =>
      have hname' : tfs.nameOf c' = some name := by simpa using List.find?_some hfind
      rw [inj_on_of_nodup_map (h.distinct a p hp) (mem_of_find?_eq_some hfind) hc
        (hname'.trans hname.symm)]

theorem ne_next {a : Nat} {n : Node} (hn : tfs.node a = some n) : a ≠ tfs.next := by
  rintro rfl
  rw [h.unused _ le_rfl] at hn
  cases hn

theorem exists_next {a : Nat} {n : Node} (hn : tfs.node a = some n) : ∃ k, tfs.next = k + 1 := by
  cases hk : tfs.next with
  | zero =>
    have hnone := h.unused a (by omega)
    rw [hn] at hnone
    cases hnone
  | succ k => exact ⟨k, rfl⟩

theorem child_ne_next {a : Nat} {name : Str} : tfs.child a name ≠ some tfs.next := by
  intro hc
  obtain ⟨p, hp, hmem, -⟩ := h.child_eq_some_iff.mp hc
  obtain ⟨n, hn, -⟩ := h.childOf a p _ hp hmem
  exact h.ne_next hn rfl

theorem isNameTree : IsNameTree tfs.child tfs.root where
  root := by
    intro a name hc
    obtain ⟨p, hp, hmem, -⟩ := h.child_eq_some_iff.mp hc
    obtain ⟨n, hn, hparent⟩ := h.childOf a p _ hp hmem
    obtain ⟨r, hr, -, hnone⟩ := h.root
    obtain rfl : r = n := some.inj (hr.symm.trans hn)
    rw [hnone] at hparent
    cases hparent
  single := by
    intro a b k l c hak hbl
    obtain ⟨p, hp, hmem, hk⟩ := h.child_eq_some_iff.mp hak
    obtain ⟨q, hq, hmem', hl⟩ := h.child_eq_some_iff.mp hbl
    obtain ⟨n, hn, ha⟩ := h.childOf a p c hp hmem
    obtain ⟨n', hn', hb⟩ := h.childOf b q c hq hmem'
    obtain rfl : n = n' := some.inj (hn.symm.trans hn')
    exact ⟨some.inj (ha.symm.trans hb), some.inj (hk.symm.trans hl)⟩

theorem nodeFindChild_eq {a : Nat} {p : Node} (hp : tfs.node a = some p) (name : Str) :
    tfs.nodeFindChild a name = some (tfs.child a name) := by
  have hloop : ∀ cs : List Nat, (∀ c ∈ cs, c ∈ p.children) →
      tfs.findChildLoop name cs = some (cs.find? fun c => tfs.nameOf c = some name) := by
    intro cs hcs
    induction cs with
    | nil => rfl
    | cons c cs ih =>
      obtain ⟨n, hn, -⟩ := h.childOf a p c hp (hcs c mem_cons_self)
      have hrest := ih fun c' hc' => hcs c' (mem_cons_of_mem c hc')
      rw [Tfs.findChildLoop, hn, bind_some, hrest, List.find?_cons]
      by_cases hname : n.name = name <;> simp [Tfs.nameOf, hn, hname]
  rw [Tfs.nodeFindChild, Tfs.child, hp, bind_some, bind_some]
  exact hloop p.children fun _ hc => hc

theorem node_of_child {a c : Nat} {name : Str} (hc : tfs.child a name = some c) :
    ∃ n, tfs.node c = some n := by
  obtain ⟨p, hp, hmem, -⟩ := h.child_eq_some_iff.mp hc
  obtain ⟨n, hn, -⟩ := h.childOf a p c hp hmem
  exact ⟨n, hn⟩

theorem lookupLoop_eq {a : Nat} {p : Node} (hp : tfs.node a = some p) (names : List Str) :
    tfs.lookupLoop (some a) names = some (follow tfs.child a names) := by
  induction names generalizing a p with
  | nil => rfl
  | cons name names ih =>
    rw [Tfs.lookupLoop, h.nodeFindChild_eq hp, bind_some, follow]
    cases hc : tfs.child a name with
    | none => cases names <;> rfl
    | some c =>
      obtain ⟨n, hn⟩ := h.node_of_child hc
      exact ih hn

theorem tensorfsLookup_eq (path : Str) :
    tfs.tensorfsLookup path = some (follow tfs.child tfs.root (components path)) := by
  obtain ⟨r, hr, -⟩ := h.root
  rw [Tfs.tensorfsLookup]
  split
  · rename_i hroot
    rw [hroot]
    rfl
  · exact h.lookupLoop_eq hr _

theorem node_of_follow {names : List Str} {a : Nat}
    (ha : follow tfs.child tfs.root names = some a) : ∃ n, tfs.node a = some n := by
  rcases followed_cases ⟨names, ha⟩ with rfl | ⟨b, -, name, hb⟩
  · obtain ⟨r, hr, -⟩ := h.root
    exact ⟨r, hr⟩
  · exact h.node_of_child hb

end Shape

/-- The node `n` has become the last child of the node at `parent`, which was `p`. -/
structure Attached (tfs t : Tfs) (parent : Nat) (p n : Node) : Prop where
  root : t.root = tfs.root
  next : t.next = tfs.next + 1
  numNodes : t.numNodes = tfs.numNodes + 1
  node_parent : tfs.node parent = some p
  type_parent : p.type = .directory
  absent : tfs.child parent n.name = none
  node_new : t.node tfs.next = some n
  parent_new : n.parent = some parent
  children_new : n.children = []
  grown : ∃ capacity, t.node parent =
    some { p with children := p.children ++ [tfs.next], childrenCapacity := capacity }
  others : ∀ a, a ≠ tfs.next → a ≠ parent → t.node a = tfs.node a

namespace Attached

variable {parent : Nat} {p n : Node} (h : Attached tfs t parent p n)

include h

theorem kept {a : Nat} {m : Node} (hm : tfs.node a = some m) (ha : a ≠ tfs.next) :
    ∃ m', t.node a = some m' ∧ m'.type = m.type ∧ m'.name = m.name ∧ m'.parent = m.parent ∧
      m'.children = if a = parent then m.children ++ [tfs.next] else m.children := by
  by_cases hp : a = parent
  · subst hp
    obtain rfl : p = m := some.inj (h.node_parent.symm.trans hm)
    obtain ⟨capacity, hgrown⟩ := h.grown
    exact ⟨_, hgrown, rfl, rfl, rfl, by rw [if_pos rfl]⟩
  · exact ⟨m, (h.others a ha hp).trans hm, rfl, rfl, rfl, by rw [if_neg hp]⟩

theorem node_cases {a : Nat} {m : Node} (hm : t.node a = some m) :
    a = tfs.next ∧ m = n ∨
      a ≠ tfs.next ∧ ∃ m₀, tfs.node a = some m₀ ∧ m.type = m₀.type ∧ m.name = m₀.name ∧
        m.parent = m₀.parent ∧
        m.children = if a = parent then m₀.children ++ [tfs.next] else m₀.children := by
  by_cases ha : a = tfs.next
  · subst ha
    exact .inl ⟨rfl, some.inj (hm.symm.trans h.node_new)⟩
  · right
    refine ⟨ha, ?_⟩
    cases h₀ : tfs.node a with
    | none =>
      have hp : a ≠ parent := by
        rintro rfl
        rw [h.node_parent] at h₀
        cases h₀
      rw [h.others a ha hp, h₀] at hm
      cases hm
    | some m₀ =>
      obtain ⟨m', hm', hfields⟩ := h.kept h₀ ha
      obtain rfl : m' = m := some.inj (hm'.symm.trans hm)
      exact ⟨m₀, rfl, hfields⟩

theorem nameOf_old {c : Nat} {m : Node} (hm : tfs.node c = some m) (hc : c ≠ tfs.next) :
    t.nameOf c = tfs.nameOf c := by
  obtain ⟨m', hm', -, hname, -⟩ := h.kept hm hc
  simp [Tfs.nameOf, hm, hm', hname]

theorem nameOf_new : t.nameOf tfs.next = some n.name := by simp [Tfs.nameOf, h.node_new]

theorem shape (hs : Shape tfs) : Shape t where
  root := by
    obtain ⟨r, hr, htype, hparent⟩ := hs.root
    obtain ⟨r', hr', htype', -, hparent', -⟩ := h.kept hr (hs.ne_next hr)
    exact ⟨r', h.root ▸ hr', htype'.trans htype, hparent'.trans hparent⟩
  childOf := by
    intro a q c hq hc
    rcases h.node_cases hq with ⟨rfl, rfl⟩ | ⟨ha, q₀, hq₀, -, -, -, hchildren⟩
    · rw [h.children_new] at hc
      cases hc
    · have hold : c ∈ q₀.children → ∃ m, t.node c = some m ∧ m.parent = some a := by
        intro hc₀
        obtain ⟨m, hm, hparent⟩ := hs.childOf a q₀ c hq₀ hc₀
        obtain ⟨m', hm', -, -, hparent', -⟩ := h.kept hm (hs.ne_next hm)
        exact ⟨m', hm', hparent'.trans hparent⟩
      rw [hchildren] at hc
      split at hc
      · rename_i hp
        rcases mem_append.mp hc with hc₀ | hnew
        · exact hold hc₀
        · obtain rfl := mem_singleton.mp hnew
          exact ⟨n, h.node_new, hp ▸ h.parent_new⟩
      · exact hold hc
  parentOf := by
    intro c m a hm ha
    rcases h.node_cases hm with ⟨rfl, rfl⟩ | ⟨hc, m₀, hm₀, -, -, hparent, -⟩
    · obtain rfl : parent = a := some.inj (h.parent_new.symm.trans ha)
      obtain ⟨capacity, hgrown⟩ := h.grown
      exact ⟨_, hgrown, by simp⟩
    · obtain ⟨q, hq, hmem⟩ := hs.parentOf c m₀ a hm₀ (hparent ▸ ha)
      obtain ⟨q', hq', -, -, -, hchildren⟩ := h.kept hq (hs.ne_next hq)
      refine ⟨q', hq', ?_⟩
      rw [hchildren]
      split
      · exact mem_append_left _ hmem
      · exact hmem
  orphan := by
    intro c m hm hnone
    rcases h.node_cases hm with ⟨rfl, rfl⟩ | ⟨-, m₀, hm₀, -, -, hparent, -⟩
    · rw [h.parent_new] at hnone
      cases hnone
    · rw [h.root]
      exact hs.orphan c m₀ hm₀ (hparent ▸ hnone)
  distinct := by
    intro a q hq
    rcases h.node_cases hq with ⟨rfl, rfl⟩ | ⟨ha, q₀, hq₀, -, -, -, hchildren⟩
    · rw [h.children_new]
      exact nodup_nil
    · have hnames : q₀.children.map t.nameOf = q₀.children.map tfs.nameOf := by
        apply map_congr_left
        intro c hc
        obtain ⟨m, hm, -⟩ := hs.childOf a q₀ c hq₀ hc
        exact h.nameOf_old hm (hs.ne_next hm)
      rw [hchildren]
      split
      · rename_i hp
        rw [map_append, hnames, map_singleton, h.nameOf_new]
        apply List.Nodup.append (hs.distinct a q₀ hq₀) (nodup_singleton _)
        intro name hold hnew
        obtain ⟨c, hc, hname⟩ := mem_map.mp hold
        obtain rfl := mem_singleton.mp hnew
        have hsome := hs.child_eq_some_iff.mpr ⟨q₀, hq₀, hc, hname⟩
        rw [hp, h.absent] at hsome
        cases hsome
      · rw [hnames]
        exact hs.distinct a q₀ hq₀
  leaf := by
    intro a m hm htype
    rcases h.node_cases hm with ⟨rfl, rfl⟩ | ⟨-, m₀, hm₀, htype₀, -, -, hchildren⟩
    · exact h.children_new
    · rw [hchildren, if_neg]
      · exact hs.leaf a m₀ hm₀ (htype₀ ▸ htype)
      · rintro rfl
        obtain rfl : p = m₀ := some.inj (h.node_parent.symm.trans hm₀)
        exact htype (htype₀.trans h.type_parent)
  unused := by
    intro a ha
    rw [h.next] at ha
    cases hm : t.node a with
    | none => rfl
    | some m =>
      rcases h.node_cases hm with ⟨rfl, -⟩ | ⟨-, m₀, hm₀, -⟩
      · omega
      · rw [hs.unused a (by omega)] at hm₀
        cases hm₀

theorem grafted (hs : Shape tfs) : Grafted tfs.child t.child parent n.name tfs.next where
  absent := h.absent
  edge := by
    obtain ⟨capacity, hgrown⟩ := h.grown
    exact (h.shape hs).child_eq_some_iff.mpr ⟨_, hgrown, by simp, h.nameOf_new⟩
  others := by
    intro a name hne
    apply Option.ext
    intro c
    rw [(h.shape hs).child_eq_some_iff, hs.child_eq_some_iff]
    constructor
    · rintro ⟨q, hq, hc, hname⟩
      rcases h.node_cases hq with ⟨rfl, rfl⟩ | ⟨ha, q₀, hq₀, -, -, -, hchildren⟩
      · rw [h.children_new] at hc
        cases hc
      · have hc₀ : c ∈ q₀.children := by
          rw [hchildren] at hc
          split at hc
          · rename_i hp
            rcases mem_append.mp hc with hc₀ | hnew
            · exact hc₀
            · obtain rfl := mem_singleton.mp hnew
              rw [h.nameOf_new] at hname
              exact absurd (some.inj hname).symm (hne.resolve_left (not_not.mpr hp))
          · exact hc
        obtain ⟨m, hm, -⟩ := hs.childOf a q₀ c hq₀ hc₀
        rw [h.nameOf_old hm (hs.ne_next hm)] at hname
        exact ⟨q₀, hq₀, hc₀, hname⟩
    · rintro ⟨q, hq, hc, hname⟩
      obtain ⟨m, hm, -⟩ := hs.childOf a q c hq hc
      obtain ⟨q', hq', -, -, -, hchildren⟩ := h.kept hq (hs.ne_next hq)
      refine ⟨q', hq', ?_, (h.nameOf_old hm (hs.ne_next hm)).trans hname⟩
      rw [hchildren]
      split
      · exact mem_append_left _ hc
      · exact hc
  leaf name := by
    rw [Tfs.child, hs.unused _ le_rfl]
    rfl
  fresh _ _ := hs.child_ne_next

theorem ok (hok : tfs.Ok) : t.Ok := by
  have hs := hok.toShape
  have hne : tfs.next ≠ tfs.root := by
    obtain ⟨r, hr, -⟩ := hs.root
    exact (hs.ne_next hr).symm
  have hg := h.grafted hs
  have htree : t.tree = insert tfs.next tfs.tree := by
    rw [Tfs.tree, Tfs.tree, h.root]
    exact hg.followed_eq hs.isNameTree hne (hok.reached parent p h.node_parent)
  exact {
    toShape := h.shape hs
    reached := by
      intro a m hm
      rw [htree]
      rcases h.node_cases hm with ⟨rfl, -⟩ | ⟨-, m₀, hm₀, -⟩
      · exact Set.mem_insert _ _
      · exact Set.mem_insert_of_mem _ (hok.reached a m₀ hm₀)
    finite := by
      rw [htree]
      exact hok.finite.insert _
    count := by
      have hnew : tfs.next ∉ tfs.tree := hg.not_mem_followed hne
      rw [htree, Set.ncard_insert_of_notMem hnew hok.finite, hok.count, h.numNodes] }

end Attached

/-- The node `n` without children at `a` is gone, and its parent, which was `p`, does not have it
any more. -/
structure Detached (tfs t : Tfs) (a parent : Nat) (p n : Node) : Prop where
  root : t.root = tfs.root
  next : t.next = tfs.next
  numNodes : t.numNodes = tfs.numNodes - 1
  node : tfs.node a = some n
  childless : n.children = []
  parent_eq : n.parent = some parent
  node_parent : tfs.node parent = some p
  gone : t.node a = none
  shrunk : t.node parent = some { p with children := p.children.erase a }
  others : ∀ b, b ≠ a → b ≠ parent → t.node b = tfs.node b

namespace Detached

variable {a parent : Nat} {p n : Node} (h : Detached tfs t a parent p n)

include h

theorem kept {b : Nat} {m : Node} (hm : tfs.node b = some m) (hb : b ≠ a) :
    ∃ m', t.node b = some m' ∧ m'.type = m.type ∧ m'.name = m.name ∧ m'.parent = m.parent ∧
      m'.children = if b = parent then m.children.erase a else m.children := by
  by_cases hp : b = parent
  · subst hp
    obtain rfl : p = m := some.inj (h.node_parent.symm.trans hm)
    exact ⟨_, h.shrunk, rfl, rfl, rfl, by rw [if_pos rfl]⟩
  · exact ⟨m, (h.others b hb hp).trans hm, rfl, rfl, rfl, by rw [if_neg hp]⟩

theorem node_old {b : Nat} {m : Node} (hm : t.node b = some m) :
    b ≠ a ∧ ∃ m₀, tfs.node b = some m₀ ∧ m.type = m₀.type ∧ m.name = m₀.name ∧
      m.parent = m₀.parent ∧
      m.children = if b = parent then m₀.children.erase a else m₀.children := by
  have hb : b ≠ a := by
    rintro rfl
    rw [h.gone] at hm
    cases hm
  refine ⟨hb, ?_⟩
  cases h₀ : tfs.node b with
  | none =>
    have hp : b ≠ parent := by
      rintro rfl
      rw [h.node_parent] at h₀
      cases h₀
    rw [h.others b hb hp, h₀] at hm
    cases hm
  | some m₀ =>
    obtain ⟨m', hm', hfields⟩ := h.kept h₀ hb
    obtain rfl : m' = m := some.inj (hm'.symm.trans hm)
    exact ⟨m₀, rfl, hfields⟩

theorem nameOf_old {c : Nat} {m : Node} (hm : tfs.node c = some m) (hc : c ≠ a) :
    t.nameOf c = tfs.nameOf c := by
  obtain ⟨m', hm', -, hname, -⟩ := h.kept hm hc
  simp [Tfs.nameOf, hm, hm', hname]

theorem mem_children (hs : Shape tfs) {b c : Nat} {q q₀ : Node} (hq₀ : tfs.node b = some q₀)
    (hchildren : q.children = if b = parent then q₀.children.erase a else q₀.children) :
    c ∈ q.children ↔ c ≠ a ∧ c ∈ q₀.children := by
  rw [hchildren]
  split
  · exact (List.Nodup.of_map _ (hs.distinct b q₀ hq₀)).mem_erase_iff
  · rename_i hp
    constructor
    · intro hc
      refine ⟨?_, hc⟩
      rintro rfl
      obtain ⟨m, hm, hb⟩ := hs.childOf b q₀ c hq₀ hc
      obtain rfl : n = m := some.inj (h.node.symm.trans hm)
      exact hp (some.inj (hb.symm.trans h.parent_eq))
    · exact And.right

theorem ne_root (hs : Shape tfs) : tfs.root ≠ a := by
  rintro rfl
  obtain ⟨r, hr, -, hnone⟩ := hs.root
  obtain rfl : n = r := some.inj (h.node.symm.trans hr)
  rw [h.parent_eq] at hnone
  cases hnone

theorem shape (hs : Shape tfs) : Shape t where
  root := by
    obtain ⟨r, hr, htype, hparent⟩ := hs.root
    obtain ⟨r', hr', htype', -, hparent', -⟩ := h.kept hr (h.ne_root hs)
    exact ⟨r', h.root ▸ hr', htype'.trans htype, hparent'.trans hparent⟩
  childOf := by
    intro b q c hq hc
    obtain ⟨-, q₀, hq₀, -, -, -, hchildren⟩ := h.node_old hq
    obtain ⟨hca, hc₀⟩ := (h.mem_children hs hq₀ hchildren).mp hc
    obtain ⟨m, hm, hparent⟩ := hs.childOf b q₀ c hq₀ hc₀
    obtain ⟨m', hm', -, -, hparent', -⟩ := h.kept hm hca
    exact ⟨m', hm', hparent'.trans hparent⟩
  parentOf := by
    intro c m b hm hb
    obtain ⟨hca, m₀, hm₀, -, -, hparent, -⟩ := h.node_old hm
    obtain ⟨q, hq, hmem⟩ := hs.parentOf c m₀ b hm₀ (hparent ▸ hb)
    have hba : b ≠ a := by
      rintro rfl
      obtain rfl : n = q := some.inj (h.node.symm.trans hq)
      rw [h.childless] at hmem
      cases hmem
    obtain ⟨q', hq', -, -, -, hchildren⟩ := h.kept hq hba
    exact ⟨q', hq', (h.mem_children hs hq hchildren).mpr ⟨hca, hmem⟩⟩
  orphan := by
    intro c m hm hnone
    obtain ⟨-, m₀, hm₀, -, -, hparent, -⟩ := h.node_old hm
    rw [h.root]
    exact hs.orphan c m₀ hm₀ (hparent ▸ hnone)
  distinct := by
    intro b q hq
    obtain ⟨-, q₀, hq₀, -, -, -, hchildren⟩ := h.node_old hq
    have hnames : q.children.map t.nameOf = q.children.map tfs.nameOf := by
      apply map_congr_left
      intro c hc
      obtain ⟨hca, hc₀⟩ := (h.mem_children hs hq₀ hchildren).mp hc
      obtain ⟨m, hm, -⟩ := hs.childOf b q₀ c hq₀ hc₀
      exact h.nameOf_old hm hca
    rw [hnames]
    have hsub : q.children.Sublist q₀.children := by
      rw [hchildren]
      split
      · exact erase_sublist
      · exact List.Sublist.refl _
    exact (hs.distinct b q₀ hq₀).sublist (hsub.map _)
  leaf := by
    intro b m hm htype
    obtain ⟨-, m₀, hm₀, htype₀, -, -, hchildren⟩ := h.node_old hm
    have hnil := hs.leaf b m₀ hm₀ (htype₀ ▸ htype)
    rw [hchildren, hnil]
    simp
  unused := by
    intro b hb
    rw [h.next] at hb
    cases hm : t.node b with
    | none => rfl
    | some m =>
      obtain ⟨-, m₀, hm₀, -⟩ := h.node_old hm
      rw [hs.unused b hb] at hm₀
      cases hm₀

theorem edge (hs : Shape tfs) : tfs.child parent n.name = some a := by
  obtain ⟨q, hq, hmem⟩ := hs.parentOf a n parent h.node h.parent_eq
  exact hs.child_eq_some_iff.mpr ⟨q, hq, hmem, by simp [Tfs.nameOf, h.node]⟩

theorem pruned (hs : Shape tfs) : Pruned tfs.child t.child parent n.name a where
  edge := h.edge hs
  gone := by
    cases hc : t.child parent n.name with
    | none => rfl
    | some c =>
      obtain ⟨q, hq, hmem, hname⟩ := (h.shape hs).child_eq_some_iff.mp hc
      obtain ⟨-, q₀, hq₀, -, -, -, hchildren⟩ := h.node_old hq
      obtain ⟨hca, hc₀⟩ := (h.mem_children hs hq₀ hchildren).mp hmem
      obtain ⟨m, hm, -⟩ := hs.childOf parent q₀ c hq₀ hc₀
      rw [h.nameOf_old hm hca] at hname
      have hedge := hs.child_eq_some_iff.mpr ⟨q₀, hq₀, hc₀, hname⟩
      exact absurd (some.inj (hedge.symm.trans (h.edge hs))) hca
  others := by
    intro b name hne
    apply Option.ext
    intro c
    rw [(h.shape hs).child_eq_some_iff, hs.child_eq_some_iff]
    constructor
    · rintro ⟨q, hq, hc, hname⟩
      obtain ⟨-, q₀, hq₀, -, -, -, hchildren⟩ := h.node_old hq
      obtain ⟨hca, hc₀⟩ := (h.mem_children hs hq₀ hchildren).mp hc
      obtain ⟨m, hm, -⟩ := hs.childOf b q₀ c hq₀ hc₀
      exact ⟨q₀, hq₀, hc₀, (h.nameOf_old hm hca).symm.trans hname⟩
    · rintro ⟨q, hq, hc, hname⟩
      obtain ⟨m, hm, hb⟩ := hs.childOf b q c hq hc
      have hca : c ≠ a := by
        rintro rfl
        obtain rfl : n = m := some.inj (h.node.symm.trans hm)
        have hparent : b = parent := some.inj (hb.symm.trans h.parent_eq)
        have hnamed : name = n.name := by simpa [Tfs.nameOf, h.node] using hname.symm
        rcases hne with hne | hne
        · exact hne hparent
        · exact hne hnamed
      have hba : b ≠ a := by
        rintro rfl
        obtain rfl : n = q := some.inj (h.node.symm.trans hq)
        rw [h.childless] at hc
        cases hc
      obtain ⟨q', hq', -, -, -, hchildren⟩ := h.kept hq hba
      exact ⟨q', hq', (h.mem_children hs hq hchildren).mpr ⟨hca, hc⟩,
        (h.nameOf_old hm hca).trans hname⟩
  leaf name := by
    cases hc : tfs.child a name with
    | none => rfl
    | some c =>
      obtain ⟨q, hq, hmem, -⟩ := hs.child_eq_some_iff.mp hc
      obtain rfl : n = q := some.inj (h.node.symm.trans hq)
      rw [h.childless] at hmem
      cases hmem

theorem ok (hok : tfs.Ok) : t.Ok := by
  have hs := hok.toShape
  have hpruned := h.pruned hs
  have htree : t.tree = tfs.tree \ {a} := by
    rw [Tfs.tree, Tfs.tree, h.root]
    exact hpruned.followed_eq hs.isNameTree (hok.reached parent p h.node_parent)
  exact {
    toShape := h.shape hs
    reached := by
      intro b m hm
      obtain ⟨hb, m₀, hm₀, -⟩ := h.node_old hm
      rw [htree]
      exact ⟨hok.reached b m₀ hm₀, hb⟩
    finite := by
      rw [htree]
      exact hok.finite.sdiff
    count := by
      rw [htree, Set.ncard_sdiff_singleton_of_mem (hok.reached a n h.node), hok.count,
        h.numNodes] }

end Detached

end Hurd.Tensorfs
