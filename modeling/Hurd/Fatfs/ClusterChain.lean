import Hurd.Framework.Linked
import Hurd.Fatfs.Fat

/-!
# Chains and tables agree

Every file has a chain in the file allocation table and a list of tables in memory. The tables have
the clusters at the beginning of the chain.
-/

namespace Hurd.Fatfs

open Function List Option

variable {ι : Type*} {g : Geometry ι} {s t : Fs ι} {i : ι} {ch ad : ι → List Nat}

/-- The chains in the file allocation table: no cluster is on two of them, and those on none are
free. -/
structure ChainsOk (g : Geometry ι) (fat : Nat → Nat) (ch : ι → List Nat) : Prop where
  linked : ∀ i, Linked fat fatEoc (ch i)
  scattered : Scattered fatFree ch
  valid : ∀ i, ∀ c ∈ ch i, g.Valid c
  free : ∀ c, g.Valid c → (fat c = fatFree ↔ ∀ i, c ∉ ch i)

/-- The table has a part of the chain as far as that is known. -/
def TableOk (table : Table) (chain : List Nat) (length k : Nat) : Prop :=
  ∀ o < clustersPerTable, clustersPerTable * k + o < length →
    table.cluster o = chain.getD (clustersPerTable * k + o) fatFree

/-- The tables of a node, at some addresses, have the beginning of its chain. -/
structure NodeOk (heap : Nat → Option Table) (d : DiskNode) (chain tables : List Nat) : Prop where
  start : d.startCluster = chain.getD 0 fatFree
  length_le : d.lengthOfChain ≤ chain.length
  first : d.first = tables.getD 0 0
  last : d.last = tables.getD (tables.length - 1) 0
  count : tables.length = (d.lengthOfChain + (clustersPerTable - 1)) / clustersPerTable
  table : ∀ k < tables.length, ∃ table, heap (tables.getD k 0) = some table ∧
    table.next = tables.getD (k + 1) 0 ∧ TableOk table chain d.lengthOfChain k

structure TablesOk (s : Fs ι) (ch ad : ι → List Nat) : Prop where
  node : ∀ i, NodeOk s.heap (s.nodes i) (ch i) (ad i)
  scattered : Scattered 0 ad
  owned : ∀ i, ∀ a ∈ ad i, a ≠ 0 ∧ a < s.brk
  brk_pos : s.brk ≠ 0

theorem getD_mem {l : List Nat} {k d : Nat} (hk : k < l.length) : l.getD k d ∈ l := by
  rw [getD_eq_getElem _ _ hk]
  exact getElem_mem hk

theorem NodeOk.congr {heap heap' : Nat → Option Table} {d : DiskNode} {chain tables : List Nat}
    (h : NodeOk heap d chain tables) (hheap : ∀ a ∈ tables, heap' a = heap a) :
    NodeOk heap' d chain tables := by
  refine ⟨h.start, h.length_le, h.first, h.last, h.count, ?_⟩
  intro k hk
  rw [hheap _ (getD_mem hk)]
  exact h.table k hk

/-- The local variables of `fat_extend_chain` are at the end of the tables. -/
structure CursorOk (d : DiskNode) (chain : List Nat) (c : Cursor) : Prop where
  table : c.table = d.last
  offs : c.offs = (d.lengthOfChain + (clustersPerTable - 1)) % clustersPerTable
  prev : c.prevCluster =
    if d.lengthOfChain = 0 then fatFree else chain.getD (d.lengthOfChain - 1) fatFree

section Append

theorem TablesOk.last_table (h : TablesOk s ch ad) (hn : (s.nodes i).lengthOfChain ≠ 0) :
    ∃ k table, k + 1 = (ad i).length ∧ k = ((s.nodes i).lengthOfChain - 1) / clustersPerTable ∧
      (s.nodes i).last = (ad i).getD k 0 ∧ (s.nodes i).last ≠ 0 ∧
      s.heap (s.nodes i).last = some table ∧ table.next = 0 ∧
      TableOk table (ch i) (s.nodes i).lengthOfChain k := by
  have hnode := h.node i
  have hcount := hnode.count
  unfold clustersPerTable at hcount
  obtain ⟨k, hk⟩ : ∃ k, k + 1 = (ad i).length := ⟨(ad i).length - 1, by omega⟩
  have hlast := hnode.last
  rw [← hk, Nat.add_sub_cancel] at hlast
  obtain ⟨table, hheap, hnext, hok⟩ := hnode.table k (by omega)
  refine ⟨k, table, hk, ?_, hlast, ?_, ?_, ?_, hok⟩
  · unfold clustersPerTable
    omega
  · rw [hlast]
    exact (h.owned i _ (getD_mem (by omega))).1
  · rw [hlast]
    exact hheap
  · rw [hnext]
    exact getD_eq_default _ _ (by omega)

theorem TablesOk.tables_nil (h : TablesOk s ch ad) (hn : (s.nodes i).lengthOfChain = 0) :
    ad i = [] ∧ (s.nodes i).last = 0 := by
  have hnode := h.node i
  have hcount := hnode.count
  have hlast := hnode.last
  rw [hn] at hcount
  have hnil : ad i = [] := eq_nil_of_length_eq_zero hcount
  rw [hnil] at hlast
  exact ⟨hnil, hlast⟩

theorem TablesOk.startCursor (h : TablesOk s ch ad) :
    ∃ c, startCursor s i = some c ∧ CursorOk (s.nodes i) (ch i) c := by
  by_cases hn : (s.nodes i).lengthOfChain = 0
  · obtain ⟨-, hlast⟩ := h.tables_nil hn
    refine ⟨⟨0, clustersPerTable - 1, fatFree⟩, ?_, ?_⟩
    · simp only [Fatfs.startCursor, hlast, if_true]
    · refine ⟨hlast.symm, ?_, ?_⟩
      · rw [hn]
        rfl
      · rw [if_pos hn]
  · obtain ⟨k, table, hk, hindex, -, hne, hheap, -, hok⟩ := h.last_table hn
    have hmod := Nat.mod_lt ((s.nodes i).lengthOfChain - 1) (show 0 < clustersPerTable by decide)
    have hsum := Nat.div_add_mod ((s.nodes i).lengthOfChain - 1) clustersPerTable
    have hcluster := hok _ hmod (by rw [hindex]; omega)
    rw [hindex, hsum] at hcluster
    refine ⟨⟨(s.nodes i).last, ((s.nodes i).lengthOfChain - 1) % clustersPerTable,
      table.cluster (((s.nodes i).lengthOfChain - 1) % clustersPerTable)⟩, ?_, ?_⟩
    · simp only [Fatfs.startCursor, hne, if_false, hheap]
    · refine ⟨rfl, ?_, ?_⟩
      · unfold clustersPerTable
        show ((s.nodes i).lengthOfChain - 1) % 1024 = ((s.nodes i).lengthOfChain + 1023) % 1024
        omega
      · rw [if_neg hn]
        exact hcluster

variable {heap heap' : Nat → Option Table} {d d' : DiskNode} {chain tables : List Nat} {a : Nat}

theorem NodeOk.store (h : NodeOk heap d chain tables) (hlt : d.lengthOfChain < chain.length)
    (hpart : d.lengthOfChain % clustersPerTable ≠ 0)
    (hlast : ∀ k table, k + 1 = tables.length → heap (tables.getD k 0) = some table →
      heap' (tables.getD k 0) = some { table with
        cluster := update table.cluster (d.lengthOfChain % clustersPerTable)
          (chain.getD d.lengthOfChain fatFree) })
    (hother : ∀ k, k + 1 < tables.length → heap' (tables.getD k 0) = heap (tables.getD k 0))
    (hd : d' = { d with lengthOfChain := d.lengthOfChain + 1 }) :
    NodeOk heap' d' chain tables := by
  subst hd
  have hcount := h.count
  unfold clustersPerTable at hcount hpart
  refine ⟨h.start, hlt, h.first, h.last, ?_, ?_⟩
  · show tables.length = (d.lengthOfChain + 1 + 1023) / 1024
    omega
  · intro k hk
    obtain ⟨table, hheap, hnext, hok⟩ := h.table k hk
    by_cases hend : k + 1 = tables.length
    · refine ⟨_, hlast k table hend hheap, hnext, ?_⟩
      intro o ho hind
      replace hind : clustersPerTable * k + o < d.lengthOfChain + 1 := hind
      unfold clustersPerTable at ho hind ⊢
      by_cases hnew : o = d.lengthOfChain % 1024
      · have heq : 1024 * k + o = d.lengthOfChain := by omega
        rw [heq, hnew]
        exact update_self ..
      · refine (update_of_ne hnew _ _).trans ?_
        exact hok o ho (show 1024 * k + o < d.lengthOfChain by omega)
    · refine ⟨table, (hother k (by omega)).trans hheap, hnext, ?_⟩
      intro o ho hind
      apply hok o ho
      unfold clustersPerTable at ho hind ⊢
      omega

theorem NodeOk.store_new (h : NodeOk heap d chain tables) (hlt : d.lengthOfChain < chain.length)
    (hfull : d.lengthOfChain % clustersPerTable = 0) {table : Table}
    (hnew : heap' a = some table) (hend : table.next = 0)
    (hcluster : table.cluster 0 = chain.getD d.lengthOfChain fatFree)
    (hlast : ∀ k table, k + 1 = tables.length → heap (tables.getD k 0) = some table →
      heap' (tables.getD k 0) = some { table with next := a })
    (hother : ∀ k, k + 1 < tables.length → heap' (tables.getD k 0) = heap (tables.getD k 0))
    (hstart' : d'.startCluster = d.startCluster) (hfirst' : d'.first = (tables ++ [a]).getD 0 0)
    (hlast' : d'.last = a) (hlength' : d'.lengthOfChain = d.lengthOfChain + 1) :
    NodeOk heap' d' chain (tables ++ [a]) := by
  have hcount := h.count
  unfold clustersPerTable at hcount hfull
  have hlen : (tables ++ [a]).length = tables.length + 1 := by simp
  have hat : (tables ++ [a]).getD tables.length 0 = a := by
    rw [getD_append_right _ _ _ _ (Nat.le_refl _), Nat.sub_self]
    rfl
  have hout : (tables ++ [a]).getD (tables.length + 1) 0 = 0 :=
    getD_eq_default _ _ (by omega)
  refine ⟨hstart'.trans h.start, by omega, hfirst', ?_, ?_, ?_⟩
  · rw [hlen, Nat.add_sub_cancel, hat, hlast']
  · unfold clustersPerTable
    omega
  · intro k hk
    rw [hlength']
    by_cases hk' : k = tables.length
    · subst hk'
      rw [hat, hout]
      refine ⟨table, hnew, hend, ?_⟩
      intro o ho hind
      unfold clustersPerTable at hind ⊢
      have hzero : o = 0 := by omega
      have heq : 1024 * tables.length + o = d.lengthOfChain := by omega
      rw [heq, hzero, hcluster]
    · have hlt' : k < tables.length := by omega
      obtain ⟨old, hheap, hnext, hok⟩ := h.table k hlt'
      have hok' : ∀ o < clustersPerTable, clustersPerTable * k + o < d.lengthOfChain + 1 →
          old.cluster o = chain.getD (clustersPerTable * k + o) fatFree := by
        intro o ho hind
        apply hok o ho
        unfold clustersPerTable at ho hind ⊢
        omega
      rw [getD_append _ _ _ _ hlt']
      by_cases hprev : k + 1 = tables.length
      · refine ⟨_, hlast k old hprev hheap, ?_, hok'⟩
        rw [hprev, hat]
      · refine ⟨old, (hother k (by omega)).trans hheap, ?_, hok'⟩
        rw [hnext, getD_append _ _ _ _ (by omega)]

theorem TablesOk.ne_last (h : TablesOk s ch ad) {k m : Nat} {j : ι} (hk : k + 1 = (ad i).length)
    (hm : m < (ad j).length) (hne : j ≠ i ∨ m ≠ k) : (ad j).getD m 0 ≠ (ad i).getD k 0 := by
  intro heq
  obtain ⟨hj, hmk⟩ := h.scattered j i m k hm (by omega) heq
  rcases hne with hne | hne
  · exact hne hj
  · exact hne hmk

variable [DecidableEq ι] {ch' : ι → List Nat} {c : Cursor} {cluster : Nat}

theorem TablesOk.update (h : TablesOk s ch ad)
    (hnode : NodeOk t.heap (t.nodes i) (ch' i) tables)
    (hother : ∀ j, j ≠ i → t.nodes j = s.nodes j ∧ ch' j = ch j)
    (hheap : ∀ j, j ≠ i → ∀ a ∈ ad j, t.heap a = s.heap a)
    (hscattered : Scattered 0 (update ad i tables))
    (howned : ∀ a ∈ tables, a ≠ 0 ∧ a < t.brk) (hbrk : s.brk ≤ t.brk) :
    TablesOk t ch' (update ad i tables) := by
  have hpos := h.brk_pos
  refine ⟨?_, hscattered, ?_, by omega⟩
  · intro j
    by_cases hj : j = i
    · subst hj
      rw [update_self]
      exact hnode
    · rw [update_of_ne hj, (hother j hj).1, (hother j hj).2]
      exact (h.node j).congr (hheap j hj)
  · intro j a ha
    by_cases hj : j = i
    · subst hj
      rw [update_self] at ha
      exact howned a ha
    · rw [update_of_ne hj] at ha
      have hown := h.owned j a ha
      exact ⟨hown.1, by omega⟩

theorem appendCluster_room {table : Table} (i : ι) (cluster : Nat) (hroom : c.offs + 1 ≠ clustersPerTable)
    (htable : s.heap c.table = some table) :
    ∃ t, appendCluster s i c cluster = some (t, ⟨c.table, c.offs + 1, cluster⟩) ∧
      t.fat = s.fat ∧ t.nextFreeCluster = s.nextFreeCluster ∧ t.brk = s.brk ∧
      t.heap = update s.heap c.table
        (some { table with cluster := update table.cluster (c.offs + 1) cluster }) ∧
      t.nodes = update s.nodes i
        { s.nodes i with lengthOfChain := (s.nodes i).lengthOfChain + 1 } := by
  refine ⟨{ s.setNode i { s.nodes i with lengthOfChain := (s.nodes i).lengthOfChain + 1 } with
      heap := update s.heap c.table
        (some { table with cluster := update table.cluster (c.offs + 1) cluster }) },
    ?_, rfl, rfl, rfl, rfl, rfl⟩
  simp [appendCluster, hroom, storeCluster, htable]

theorem appendCluster_full (i : ι) (cluster : Nat) (hfull : c.offs + 1 = clustersPerTable)
    (hbrk : c.table ≠ s.brk)
    (htable : c.table ≠ 0 → s.heap c.table ≠ none) :
    ∃ t, appendCluster s i c cluster = some (t, ⟨s.brk, 0, cluster⟩) ∧
      t.fat = s.fat ∧ t.nextFreeCluster = s.nextFreeCluster ∧ t.brk = s.brk + 1 ∧
      t.heap s.brk = some ⟨0, update (fun _ => 0) 0 cluster⟩ ∧
      (∀ table, c.table ≠ 0 → s.heap c.table = some table →
        t.heap c.table = some { table with next := s.brk }) ∧
      (∀ a, a ≠ s.brk → a ≠ c.table → t.heap a = s.heap a) ∧
      t.nodes = update s.nodes i
        { s.nodes i with
          first := if c.table = 0 then s.brk else (s.nodes i).first
          last := s.brk
          lengthOfChain := (s.nodes i).lengthOfChain + 1 } := by
  by_cases hzero : c.table = 0
  · simp only [appendCluster, hfull, if_true, allocateNewTable, hzero, storeCluster,
      update_self, map_some, Fs.setNode, update_idem]
    refine ⟨_, rfl, rfl, rfl, rfl, update_self .., ?_, ?_, rfl⟩
    · intro table hne
      exact absurd rfl hne
    · intro a ha _
      simp [ha]
  · obtain ⟨table, htab⟩ := ne_none_iff_exists'.mp (htable hzero)
    simp only [appendCluster, hfull, if_true, allocateNewTable, hzero, if_false, htab, storeCluster,
      update_of_ne (Ne.symm hbrk), update_self, map_some, Fs.setNode,
      update_idem]
    refine ⟨_, rfl, rfl, rfl, rfl, update_self .., ?_, ?_, rfl⟩
    · intro table' _ heq
      cases heq
      simp [hbrk]
    · intro a ha hat
      simp [ha, hat]

/-- The part of the state that work on the tables of a node leaves alone. -/
structure Beside (i : ι) (s t : Fs ι) : Prop where
  fat : t.fat = s.fat
  nextFreeCluster : t.nextFreeCluster = s.nextFreeCluster
  nodes : ∀ j, j ≠ i → t.nodes j = s.nodes j

/-- What it is to put the next cluster of a chain at the end of the tables. -/
structure Appended (i : ι) (s t : Fs ι) (chain : List Nat) (c : Cursor) : Prop where
  beside : Beside i s t
  length : (t.nodes i).lengthOfChain = (s.nodes i).lengthOfChain + 1
  complete : (t.nodes i).chainComplete = (s.nodes i).chainComplete
  cursor : CursorOk (t.nodes i) chain c

theorem TablesOk.append_room (h : TablesOk s ch ad) (hc : CursorOk (s.nodes i) (ch i) c)
    (hlt : (s.nodes i).lengthOfChain < (ch i).length)
    (hcl : cluster = (ch i).getD (s.nodes i).lengthOfChain fatFree)
    (hpart : (s.nodes i).lengthOfChain % clustersPerTable ≠ 0) :
    ∃ t c', appendCluster s i c cluster = some (t, c') ∧ TablesOk t ch ad ∧
      Appended i s t (ch i) c' := by
  have hoffs := hc.offs
  have hpart' := hpart
  unfold clustersPerTable at hoffs hpart'
  have hat : c.offs + 1 = (s.nodes i).lengthOfChain % clustersPerTable := by
    unfold clustersPerTable
    omega
  have hroom : c.offs + 1 ≠ clustersPerTable := by
    unfold clustersPerTable
    omega
  obtain ⟨k, table, hk, -, hlast, -, hheap, -, -⟩ := h.last_table (i := i) (by omega)
  obtain ⟨t, hrun, hfat, hfree, hbrk, hheap', hnodes⟩ :=
    appendCluster_room i cluster hroom (hc.table ▸ hheap)
  rw [hc.table, hlast] at hheap'
  rw [hlast] at hheap
  have hnode : t.nodes i = { s.nodes i with lengthOfChain := (s.nodes i).lengthOfChain + 1 } := by
    rw [hnodes, update_self]
  have hnodes' : ∀ j, j ≠ i → t.nodes j = s.nodes j := by
    intro j hj
    rw [hnodes, update_of_ne hj]
  refine ⟨t, _, hrun, ?_, ⟨hfat, hfree, hnodes'⟩, ?_, ?_, ?_⟩
  · rw [← update_eq_self i ad]
    apply h.update (i := i)
    · apply (h.node i).store hlt hpart _ _ hnode
      · intro k' table' hk' htable'
        have hkk : k' = k := by omega
        rw [hkk, hheap] at htable'
        cases htable'
        rw [hkk, hheap', update_self, hat, hcl]
      · intro k' hk'
        rw [hheap', update_of_ne (h.ne_last hk (by omega) (.inr (by omega)))]
    · intro j hj
      exact ⟨hnodes' j hj, rfl⟩
    · intro j hj a ha
      rw [hheap']
      apply update_of_ne
      intro heq
      apply hj
      apply h.scattered.eq_of_mem ha
      rw [heq]
      exact getD_mem (by omega)
    · rw [update_eq_self]
      exact h.scattered
    · rw [hbrk]
      exact h.owned i
    · omega
  · rw [hnode]
  · rw [hnode]
  · rw [hnode]
    refine ⟨hc.table, ?_, ?_⟩
    · show c.offs + 1 = ((s.nodes i).lengthOfChain + 1 + 1023) % 1024
      omega
    · exact hcl

theorem TablesOk.append_full (h : TablesOk s ch ad) (hc : CursorOk (s.nodes i) (ch i) c)
    (hlt : (s.nodes i).lengthOfChain < (ch i).length)
    (hcl : cluster = (ch i).getD (s.nodes i).lengthOfChain fatFree)
    (hpart : (s.nodes i).lengthOfChain % clustersPerTable = 0) :
    ∃ t c', appendCluster s i c cluster = some (t, c') ∧
      TablesOk t ch (Function.update ad i (ad i ++ [s.brk])) ∧ Appended i s t (ch i) c' := by
  have hoffs := hc.offs
  have hpart' := hpart
  unfold clustersPerTable at hoffs hpart'
  have hfull : c.offs + 1 = clustersPerTable := by
    unfold clustersPerTable
    omega
  have hfresh : ∀ j, s.brk ∉ ad j := by
    intro j hmem
    have hown := h.owned j _ hmem
    omega
  -- the last table is 0 when there is none, and otherwise one of the node's
  have hlast : c.table = 0 ∧ ad i = [] ∨
      ∃ k, k + 1 = (ad i).length ∧ c.table = (ad i).getD k 0 ∧ c.table ≠ 0 ∧
        s.heap c.table ≠ none := by
    rw [hc.table]
    by_cases hn : (s.nodes i).lengthOfChain = 0
    · obtain ⟨hnil, hzero⟩ := h.tables_nil hn
      exact .inl ⟨hzero, hnil⟩
    · obtain ⟨k, table, hk, -, hlast, hne, hheap, -, -⟩ := h.last_table hn
      exact .inr ⟨k, hk, hlast, hne, by rw [hheap]; exact some_ne_none _⟩
  have hbrk : c.table ≠ s.brk := by
    intro heq
    rcases hlast with ⟨hzero, -⟩ | ⟨k, hk, hat, -, -⟩
    · exact h.brk_pos (heq.symm.trans hzero)
    · apply hfresh i
      rw [← heq, hat]
      exact getD_mem (by omega)
  have htable : c.table ≠ 0 → s.heap c.table ≠ none := by
    intro hne
    rcases hlast with ⟨hzero, -⟩ | ⟨k, -, -, -, hsome⟩
    · exact absurd hzero hne
    · exact hsome
  obtain ⟨t, hrun, hfat, hfree, hbrk', hnew, hold, hother, hnodes⟩ :=
    appendCluster_full i cluster hfull hbrk htable
  have hnode := congrFun hnodes i
  rw [update_self] at hnode
  have hnodes' : ∀ j, j ≠ i → t.nodes j = s.nodes j := by
    intro j hj
    rw [hnodes, update_of_ne hj]
  refine ⟨t, _, hrun, ?_, ⟨hfat, hfree, hnodes'⟩, ?_, ?_, ?_⟩
  · apply h.update (i := i)
    · apply (h.node i).store_new hlt hpart hnew rfl
      · rw [hcl]
        rfl
      · intro k table hk htable'
        rcases hlast with ⟨-, hnil⟩ | ⟨k', hk', hat, hne, -⟩
        · rw [hnil] at hk
          cases hk
        · have hkk : k = k' := by omega
          rw [hkk, ← hat] at htable' ⊢
          exact hold table hne htable'
      · intro k hk
        rcases hlast with ⟨-, hnil⟩ | ⟨k', hk', hat, hne, -⟩
        · rw [hnil] at hk
          cases hk
        · apply hother
          · intro heq
            exact hfresh i (heq ▸ getD_mem (by omega))
          · rw [hat]
            exact h.ne_last hk' (by omega) (.inr (by omega))
      · rw [hnode]
      · rw [hnode]
        rcases hlast with ⟨hzero, hnil⟩ | ⟨k, hk, -, hne, -⟩
        · rw [hnil]
          exact if_pos hzero
        · rw [getD_append _ _ _ _ (by omega), ← (h.node i).first]
          exact if_neg hne
      · rw [hnode]
      · rw [hnode]
    · intro j hj
      exact ⟨hnodes' j hj, rfl⟩
    · intro j hj a ha
      apply hother
      · intro heq
        exact hfresh j (heq ▸ ha)
      · intro heq
        rcases hlast with ⟨hzero, -⟩ | ⟨k, hk, hat, -, -⟩
        · exact (h.owned j a ha).1 (heq.trans hzero)
        · apply hj
          apply h.scattered.eq_of_mem ha
          rw [heq, hat]
          exact getD_mem (by omega)
    · exact h.scattered.snoc hfresh
    · intro a ha
      rw [hbrk']
      rcases mem_append.mp ha with ha | ha
      · have hown := h.owned i a ha
        exact ⟨hown.1, by omega⟩
      · rw [mem_singleton.mp ha]
        exact ⟨h.brk_pos, by omega⟩
    · omega
  · rw [hnode]
  · rw [hnode]
  · rw [hnode]
    refine ⟨rfl, ?_, ?_⟩
    · show 0 = ((s.nodes i).lengthOfChain + 1 + 1023) % 1024
      omega
    · exact hcl

theorem TablesOk.append (h : TablesOk s ch ad) (hc : CursorOk (s.nodes i) (ch i) c)
    (hlt : (s.nodes i).lengthOfChain < (ch i).length)
    (hcl : cluster = (ch i).getD (s.nodes i).lengthOfChain fatFree) :
    ∃ t c' ad', appendCluster s i c cluster = some (t, c') ∧ TablesOk t ch ad' ∧
      Appended i s t (ch i) c' := by
  by_cases hpart : (s.nodes i).lengthOfChain % clustersPerTable = 0
  · obtain ⟨t, c', hrun, hok, happ⟩ := h.append_full hc hlt hcl hpart
    exact ⟨t, c', _, hrun, hok, happ⟩
  · obtain ⟨t, c', hrun, hok, happ⟩ := h.append_room hc hlt hcl hpart
    exact ⟨t, c', _, hrun, hok, happ⟩

end Append

end Hurd.Fatfs
