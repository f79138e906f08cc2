import Hurd.Fatfs.ClusterChain

/-!
# Extension of cluster chains

`fat_extend_chain` always returns. What it and `fat_getcluster` leave is consistent again: a cluster
that is put on a chain was free, and the tables have the beginning of the chain.
-/

namespace Hurd.Fatfs

open Function List

variable {ι : Type*} {g : Geometry ι} {s t : Fs ι} {i : ι} {ch ad : ι → List Nat}

section Allocate

theorem searchFree_spec {old pos : Nat} (fuel : Nat) (wrapped : Bool) (hold : g.Valid old)
    (hpos : g.Valid pos)
    (hfuel : (if wrapped = true then old else g.nrOfClusters + old) ≤ pos + fuel)
    (hside : if wrapped = true then pos < old else old ≤ pos) :
    ∃ r next, searchFree g s old fuel pos wrapped = some (r, next) ∧ g.Valid next ∧
      ∀ c, r = some c → g.Valid c ∧ s.fat c = fatFree := by
  unfold Geometry.Valid at hold
  induction fuel generalizing pos wrapped with
  | zero =>
    unfold Geometry.Valid at hpos
    cases wrapped <;> simp at hfuel hside <;> omega
  | succ fuel ih =>
    have hget : fatGetNextCluster g s pos = some (s.fat pos) := if_pos hpos
    have hpos' := hpos
    unfold Geometry.Valid at hpos'
    simp only [searchFree, hget]
    generalize hnext : (if pos + 1 = g.nrOfClusters + 2 then 2 else pos + 1) = next
    have hvalid : g.Valid next := by
      unfold Geometry.Valid
      split at hnext <;> omega
    by_cases hfree : s.fat pos = fatFree
    · rw [if_pos hfree]
      refine ⟨_, _, rfl, hvalid, ?_⟩
      intro c hc
      cases hc
      exact ⟨hpos, hfree⟩
    · rw [if_neg hfree]
      split
      · refine ⟨_, _, rfl, hvalid, ?_⟩
        intro c hc
        cases hc
      · rename_i hgo
        by_cases hend : pos + 1 = g.nrOfClusters + 2
        · rw [if_pos hend] at hnext
          simp only [hend, decide_true, Bool.or_true, true_and] at hgo ⊢
          apply ih _ hvalid
          · cases wrapped <;> simp at hfuel hside ⊢ <;> omega
          · simp only [if_true]
            omega
        · rw [if_neg hend] at hnext
          simp only [hend, decide_false, Bool.or_false] at hgo ⊢
          apply ih _ hvalid
          · cases wrapped <;> simp at hfuel ⊢ <;> omega
          · cases wrapped <;> simp at hside hgo ⊢ <;> omega

theorem fatAllocateCluster_spec (content : Nat) (hnext : g.Valid s.nextFreeCluster) :
    ∃ t r, fatAllocateCluster g s content = some (t, r) ∧ g.Valid t.nextFreeCluster ∧
      t.heap = s.heap ∧ t.brk = s.brk ∧ t.nodes = s.nodes ∧ (r = none → t.fat = s.fat) ∧
      ∀ c, r = some c →
        g.Valid c ∧ s.fat c = fatFree ∧ t.fat = update s.fat c content := by
  obtain ⟨r, next, hsearch, hvalid, hfound⟩ :=
    searchFree_spec (s := s) g.nrOfClusters false hnext hnext (by simp; omega) (by simp)
  cases r with
  | none =>
    refine ⟨{ s with nextFreeCluster := next }, none, ?_, hvalid, rfl, rfl, rfl, fun _ => rfl, ?_⟩
    · simp only [fatAllocateCluster, hsearch]
    · intro c hc
      cases hc
  | some c =>
    obtain ⟨hc, hfree⟩ := hfound c rfl
    refine ⟨{ s with nextFreeCluster := next, fat := update s.fat c content }, some c,
      ?_, hvalid, rfl, rfl, rfl, ?_, ?_⟩
    · simp only [fatAllocateCluster, hsearch, fatWriteNextCluster, hc, if_true]
    · intro h
      cases h
    · intro c' hc'
      cases hc'
      exact ⟨hc, hfree, rfl⟩

theorem getD_congr {l : List Nat} {k d : Nat} (d' : Nat) (hk : k < l.length) :
    l.getD k d = l.getD k d' := by
  rw [getD_eq_getElem _ _ hk, getD_eq_getElem _ _ hk]

theorem Geometry.Valid.ne_free {c : Nat} (h : g.Valid c) : c ≠ fatFree := by
  unfold Geometry.Valid at h
  unfold fatFree
  omega

theorem Geometry.Valid.ne_eoc {c : Nat} (h : g.Valid c) : c ≠ fatEoc := by
  have hsmall := g.small
  unfold Geometry.Valid at h
  omega

variable [DecidableEq ι] {fat fat' : Nat → Nat} {c : Nat}

theorem mem_update_snoc {x : Nat} {j : ι} :
    x ∈ update ch i (ch i ++ [c]) j ↔ x ∈ ch j ∨ j = i ∧ x = c := by
  by_cases hj : j = i
  · subst hj
    simp
  · simp [hj]

theorem ChainsOk.snoc (h : ChainsOk g fat ch) (hc : g.Valid c) (hfree : fat c = fatFree)
    (hnew : fat' c = fatEoc)
    (hlast : ∀ k, k + 1 = (ch i).length → fat' ((ch i).getD k fatFree) = c)
    (hother : ∀ x, x ≠ c → (∀ k, k + 1 = (ch i).length → x ≠ (ch i).getD k fatFree) →
      fat' x = fat x) :
    ChainsOk g fat' (update ch i (ch i ++ [c])) := by
  have hfresh : ∀ j, c ∉ ch j := (h.free c hc).mp hfree
  have hne : ∀ j, ∀ x ∈ ch j, x ≠ c := by
    intro j x hx heq
    exact hfresh j (heq ▸ hx)
  refine ⟨?_, h.scattered.snoc hfresh, ?_, ?_⟩
  · intro j
    by_cases hj : j = i
    · subst hj
      rw [update_self]
      apply (h.linked j).snoc hnew
      · intro k hk
        rw [getD_congr fatFree (by omega)]
        exact hlast k hk
      · intro k hk
        apply hother _ (hne j _ (getD_mem (by omega)))
        intro m hm heq
        rw [getD_congr fatFree (by omega)] at heq
        have hkm := (h.scattered j j k m (by omega) (by omega) heq).2
        omega
    · rw [update_of_ne hj]
      apply (h.linked j).congr
      intro x hx
      apply hother x (hne j x hx)
      intro k hk heq
      apply hj
      apply h.scattered.eq_of_mem hx
      rw [heq]
      exact getD_mem (by omega)
  · intro j x hx
    rcases mem_update_snoc.mp hx with hx | ⟨-, hx⟩
    · exact h.valid j x hx
    · exact hx ▸ hc
  · intro x hx
    simp only [mem_update_snoc, not_or, not_and]
    by_cases hxc : x = c
    · subst hxc
      rw [hnew]
      constructor
      · intro heq
        cases heq
      · intro hall
        exact absurd rfl ((hall i).2 rfl)
    · by_cases hend : ∃ k, k + 1 = (ch i).length ∧ x = (ch i).getD k fatFree
      · obtain ⟨k, hk, rfl⟩ := hend
        rw [hlast k hk]
        constructor
        · intro heq
          exact absurd heq hc.ne_free
        · intro hall
          exact absurd (getD_mem (by omega)) (hall i).1
      · rw [hother x hxc (fun k hk heq => hend ⟨k, hk, heq⟩), h.free x hx]
        constructor
        · intro hall j
          exact ⟨hall j, fun _ => hxc⟩
        · intro hall j
          exact (hall j).1

end Allocate

/-- The chains are consistent, and the tables and flags of the nodes agree with them. -/
structure FsOk (g : Geometry ι) (s : Fs ι) (ch ad : ι → List Nat) : Prop where
  chains : ChainsOk g s.fat ch
  tables : TablesOk s ch ad
  next : g.Valid s.nextFreeCluster
  complete : ∀ i, (s.nodes i).chainComplete = true → (s.nodes i).lengthOfChain = (ch i).length

section Extend

variable {c : Cursor} {create : Bool}

theorem CursorOk.prev_eq_free_iff (h : FsOk g s ch ad) (hc : CursorOk (s.nodes i) (ch i) c) :
    c.prevCluster = fatFree ↔ (s.nodes i).lengthOfChain = 0 := by
  have hle := (h.tables.node i).length_le
  rw [hc.prev]
  by_cases hn : (s.nodes i).lengthOfChain = 0
  · rw [if_pos hn]
    exact ⟨fun _ => hn, fun _ => rfl⟩
  · rw [if_neg hn]
    constructor
    · intro heq
      exact absurd heq (h.chains.valid i _ (getD_mem (by omega))).ne_free
    · intro heq
      exact absurd heq hn

theorem CursorOk.prev_valid (h : FsOk g s ch ad) (hc : CursorOk (s.nodes i) (ch i) c)
    (hn : (s.nodes i).lengthOfChain ≠ 0) :
    c.prevCluster = (ch i).getD ((s.nodes i).lengthOfChain - 1) fatFree ∧
      g.Valid c.prevCluster := by
  have hle := (h.tables.node i).length_le
  have hprev := hc.prev
  rw [if_neg hn] at hprev
  refine ⟨hprev, ?_⟩
  rw [hprev]
  exact h.chains.valid i _ (getD_mem (by omega))

theorem readNext_spec (h : FsOk g s ch ad) (hc : CursorOk (s.nodes i) (ch i) c) :
    ∃ cluster, readNext g s i c = some cluster ∧
      ((s.nodes i).lengthOfChain < (ch i).length ∧ cluster ≠ fatEoc ∧ cluster ≠ fatFree ∧
          cluster = (ch i).getD (s.nodes i).lengthOfChain fatFree ∨
        (s.nodes i).lengthOfChain = (ch i).length ∧ (cluster = fatEoc ∨ cluster = fatFree)) := by
  have hle := (h.tables.node i).length_le
  have hmem : (s.nodes i).lengthOfChain < (ch i).length →
      g.Valid ((ch i).getD (s.nodes i).lengthOfChain fatFree) := by
    intro hlt
    exact h.chains.valid i _ (getD_mem hlt)
  by_cases hn : (s.nodes i).lengthOfChain = 0
  · refine ⟨(s.nodes i).startCluster, ?_, ?_⟩
    · simp only [readNext, ne_eq, (hc.prev_eq_free_iff h).mpr hn, not_true, if_false]
    · rw [(h.tables.node i).start]
      rw [hn] at hmem ⊢
      by_cases hlt : 0 < (ch i).length
      · exact .inl ⟨hlt, (hmem hlt).ne_eoc, (hmem hlt).ne_free, rfl⟩
      · refine .inr ⟨by omega, .inr ?_⟩
        exact getD_eq_default _ _ (by omega)
  · obtain ⟨hprev, hvalid⟩ := hc.prev_valid h hn
    refine ⟨s.fat c.prevCluster, ?_, ?_⟩
    · simp only [readNext, ne_eq, hvalid.ne_free, not_false_eq_true, if_true, fatGetNextCluster,
        hvalid]
    · have hlink := h.chains.linked i ((s.nodes i).lengthOfChain - 1) (by omega)
      rw [getD_congr fatFree (by omega), ← hprev, Nat.sub_add_cancel (by omega)] at hlink
      rw [hlink]
      by_cases hlt : (s.nodes i).lengthOfChain < (ch i).length
      · rw [getD_congr fatFree hlt]
        exact .inl ⟨hlt, (hmem hlt).ne_eoc, (hmem hlt).ne_free, rfl⟩
      · refine .inr ⟨by omega, .inl ?_⟩
        exact getD_eq_default _ _ (by omega)

theorem TablesOk.congr (h : TablesOk s ch ad) (hheap : t.heap = s.heap) (hbrk : t.brk = s.brk)
    (hnodes : t.nodes = s.nodes) : TablesOk t ch ad := by
  refine ⟨?_, h.scattered, ?_, ?_⟩
  · rw [hheap, hnodes]
    exact h.node
  · rw [hbrk]
    exact h.owned
  · rw [hbrk]
    exact h.brk_pos

theorem FsOk.congr (h : FsOk g s ch ad) (hfat : t.fat = s.fat) (hheap : t.heap = s.heap)
    (hbrk : t.brk = s.brk) (hnodes : t.nodes = s.nodes) (hnext : g.Valid t.nextFreeCluster) :
    FsOk g t ch ad := by
  refine ⟨?_, h.tables.congr hheap hbrk hnodes, hnext, ?_⟩
  · rw [hfat]
    exact h.chains
  · rw [hnodes]
    exact h.complete

/-- What a run of the loop of `fat_extend_chain` achieves. -/
structure Extended (g : Geometry ι) (i : ι) (create : Bool) (left : Nat) (s t : Fs ι)
    (err : Option Error) (ch ch' ad' : ι → List Nat) : Prop where
  ok : FsOk g t ch' ad'
  created : create = true → err = none →
    (t.nodes i).lengthOfChain = (s.nodes i).lengthOfChain + left
  read : create = false → ch' = ch ∧
    ((t.nodes i).lengthOfChain = (s.nodes i).lengthOfChain + left ∨
      (t.nodes i).lengthOfChain = (ch i).length)

theorem Extended.trans {left : Nat} {u : Fs ι} {err : Option Error} {ch' ch'' ad' : ι → List Nat}
    (h : Extended g i create left t u err ch' ch'' ad')
    (hlength : (t.nodes i).lengthOfChain = (s.nodes i).lengthOfChain + 1)
    (hch : create = false → ch' = ch) :
    Extended g i create (left + 1) s u err ch ch'' ad' := by
  refine ⟨h.ok, ?_, ?_⟩
  · intro hcreate herr
    have hlen := h.created hcreate herr
    omega
  · intro hread
    obtain ⟨hch', hlen⟩ := h.read hread
    have heq := hch hread
    subst heq
    refine ⟨hch', ?_⟩
    rcases hlen with hlen | hlen
    · exact .inl (by omega)
    · exact .inr hlen

variable [DecidableEq ι]

/-- What it is that a chain has been extended by a cluster but not yet the tables. -/
structure Grown (g : Geometry ι) (i : ι) (s t : Fs ι) (ch ad : ι → List Nat) (c : Cursor)
    (cluster : Nat) : Prop where
  chains : ChainsOk g t.fat (update ch i (ch i ++ [cluster]))
  tables : TablesOk t (update ch i (ch i ++ [cluster])) ad
  next : g.Valid t.nextFreeCluster
  cursor : CursorOk (t.nodes i) (ch i ++ [cluster]) c
  nodes : ∀ j, j ≠ i → t.nodes j = s.nodes j
  length : (t.nodes i).lengthOfChain = (s.nodes i).lengthOfChain
  complete : (t.nodes i).chainComplete = (s.nodes i).chainComplete

theorem Grown.intro {cluster : Nat} (h : FsOk g s ch ad) (hc : CursorOk (s.nodes i) (ch i) c)
    (hend : (s.nodes i).lengthOfChain = (ch i).length) (hcluster : g.Valid cluster)
    (hfree : s.fat cluster = fatFree) (hnew : t.fat cluster = fatEoc)
    (hlast : ∀ k, k + 1 = (ch i).length → t.fat ((ch i).getD k fatFree) = cluster)
    (hother : ∀ x, x ≠ cluster → (∀ k, k + 1 = (ch i).length → x ≠ (ch i).getD k fatFree) →
      t.fat x = s.fat x)
    (hheap : t.heap = s.heap) (hbrk : t.brk = s.brk) (hnext : g.Valid t.nextFreeCluster)
    (hnode : t.nodes = update s.nodes i
      { s.nodes i with startCluster := (ch i ++ [cluster]).getD 0 fatFree }) :
    Grown g i s t ch ad c cluster := by
  have hnode' := congrFun hnode i
  rw [update_self] at hnode'
  have hnodes : ∀ j, j ≠ i → t.nodes j = s.nodes j := by
    intro j hj
    rw [hnode, update_of_ne hj]
  refine ⟨h.chains.snoc hcluster hfree hnew hlast hother, ?_, hnext, ?_, hnodes, ?_, ?_⟩
  · rw [← update_eq_self i ad]
    apply h.tables.update (i := i)
    · rw [update_self, hheap, hnode']
      have hn := h.tables.node i
      refine ⟨rfl, ?_, hn.first, hn.last, hn.count, ?_⟩
      · rw [length_append]
        exact Nat.le_add_right_of_le hn.length_le
      · intro k hk
        obtain ⟨table, htable, hlink, hok⟩ := hn.table k hk
        refine ⟨table, htable, hlink, ?_⟩
        intro o ho hind
        have hle := hn.length_le
        rw [hok o ho hind, getD_append]
        exact Nat.lt_of_lt_of_le hind hle
    · intro j hj
      exact ⟨hnodes j hj, update_of_ne hj ..⟩
    · intro j _ a _
      rw [hheap]
    · rw [update_eq_self]
      exact h.tables.scattered
    · rw [hbrk]
      exact h.tables.owned i
    · omega
  · rw [hnode']
    refine ⟨hc.table, hc.offs, ?_⟩
    have hprev := hc.prev
    show c.prevCluster = if (s.nodes i).lengthOfChain = 0 then fatFree
      else (ch i ++ [cluster]).getD ((s.nodes i).lengthOfChain - 1) fatFree
    by_cases hn : (s.nodes i).lengthOfChain = 0
    · rw [if_pos hn] at hprev ⊢
      exact hprev
    · rw [if_neg hn] at hprev ⊢
      rw [hprev, getD_append _ _ _ _ (by omega)]
  · rw [hnode']
  · rw [hnode']

theorem allocateNext_spec (h : FsOk g s ch ad) (hc : CursorOk (s.nodes i) (ch i) c)
    (hend : (s.nodes i).lengthOfChain = (ch i).length) :
    ∃ t r, allocateNext g s i c = some (t, r) ∧
      (r = none → FsOk g t ch ad ∧ t.nodes = s.nodes) ∧
      ∀ cluster, r = some cluster → Grown g i s t ch ad c cluster := by
  obtain ⟨t, r, hrun, hnext, hheap, hbrk, hnodes, hnone, hsome⟩ :=
    fatAllocateCluster_spec fatEoc h.next
  cases r with
  | none =>
    refine ⟨t, none, ?_, ?_, ?_⟩
    · simp only [allocateNext, hrun]
    · intro _
      exact ⟨h.congr (hnone rfl) hheap hbrk hnodes hnext, hnodes⟩
    · intro cluster hcl
      cases hcl
  | some cluster =>
    obtain ⟨hvalid, hfree, hfat⟩ := hsome cluster rfl
    by_cases hn : (s.nodes i).lengthOfChain = 0
    · have hprev := (hc.prev_eq_free_iff h).mpr hn
      have hnil : ch i = [] := eq_nil_of_length_eq_zero (hend.symm.trans hn)
      refine ⟨t.setNode i { t.nodes i with startCluster := cluster }, some cluster, ?_, ?_, ?_⟩
      · simp only [allocateNext, hrun, hprev, fatFree, ne_eq, not_true, if_false]
      · intro hcl
        cases hcl
      · intro cluster' hcl
        cases hcl
        apply Grown.intro h hc hend hvalid hfree
        · show t.fat cluster = fatEoc
          rw [hfat, update_self]
        · intro k hk
          rw [hnil] at hk
          cases hk
        · intro x hx _
          show t.fat x = s.fat x
          rw [hfat, update_of_ne hx]
        · exact hheap
        · exact hbrk
        · exact hnext
        · rw [hnil, ← hnodes]
          rfl
    · obtain ⟨hprev, hpvalid⟩ := hc.prev_valid h hn
      have hmem : c.prevCluster ∈ ch i := by
        rw [hprev]
        exact getD_mem (by omega)
      have hne : c.prevCluster ≠ cluster := by
        intro heq
        exact (h.chains.free cluster hvalid).mp hfree i (heq ▸ hmem)
      refine ⟨{ t with fat := update t.fat c.prevCluster cluster }, some cluster, ?_, ?_,
        ?_⟩
      · have hne' : c.prevCluster ≠ 0 := hpvalid.ne_free
        simp only [allocateNext, hrun, hne', ne_eq, not_false_eq_true, if_true,
          fatWriteNextCluster, hpvalid, Option.map_some]
      · intro hcl
        cases hcl
      · intro cluster' hcl
        cases hcl
        apply Grown.intro h hc hend hvalid hfree
        · show update t.fat c.prevCluster cluster cluster = fatEoc
          rw [update_of_ne hne.symm, hfat, update_self]
        · intro k hk
          have hk' : k = (s.nodes i).lengthOfChain - 1 := by omega
          rw [hk', ← hprev]
          exact update_self ..
        · intro x hx hlast
          have hxp : x ≠ c.prevCluster := by
            rw [hprev]
            exact hlast _ (by omega)
          show update t.fat c.prevCluster cluster x = s.fat x
          rw [update_of_ne hxp, hfat, update_of_ne hx]
        · exact hheap
        · exact hbrk
        · exact hnext
        · rw [getD_append _ _ _ _ (by omega), ← (h.tables.node i).start]
          exact hnodes.trans (update_eq_self i s.nodes).symm

theorem FsOk.of_appended (hchains : ChainsOk g s.fat ch) (htables : TablesOk t ch ad)
    (happ : Appended i s t (ch i) c) (hnext : g.Valid s.nextFreeCluster)
    (hother : ∀ j, j ≠ i → (s.nodes j).chainComplete = true →
      (s.nodes j).lengthOfChain = (ch j).length)
    (hnode : (s.nodes i).chainComplete = true →
      (s.nodes i).lengthOfChain + 1 = (ch i).length) : FsOk g t ch ad := by
  refine ⟨?_, htables, ?_, ?_⟩
  · rw [happ.beside.fat]
    exact hchains
  · rw [happ.beside.nextFreeCluster]
    exact hnext
  · intro j hj
    by_cases hji : j = i
    · subst hji
      rw [happ.complete] at hj
      rw [happ.length]
      exact hnode hj
    · rw [happ.beside.nodes j hji] at hj ⊢
      exact hother j hji hj

theorem FsOk.setNode {d : DiskNode} (h : FsOk g s ch ad)
    (hstart : d.startCluster = (s.nodes i).startCluster) (hfirst : d.first = (s.nodes i).first)
    (hlast : d.last = (s.nodes i).last) (hlength : d.lengthOfChain = (s.nodes i).lengthOfChain)
    (hcomplete : d.chainComplete = true → (s.nodes i).lengthOfChain = (ch i).length) :
    FsOk g (s.setNode i d) ch ad := by
  have hn := h.tables.node i
  refine ⟨h.chains, ?_, h.next, ?_⟩
  · rw [← update_eq_self i ad]
    apply h.tables.update (i := i)
    · rw [Fs.setNode_nodes_self]
      refine ⟨hstart.trans hn.start, ?_, hfirst.trans hn.first, hlast.trans hn.last, ?_, ?_⟩
      · rw [hlength]
        exact hn.length_le
      · rw [hlength]
        exact hn.count
      · rw [hlength]
        exact hn.table
    · intro j hj
      exact ⟨s.setNode_nodes_of_ne hj d, rfl⟩
    · intro j _ a _
      rfl
    · rw [update_eq_self]
      exact h.tables.scattered
    · exact h.tables.owned i
    · exact Nat.le_refl s.brk
  · intro j hj
    by_cases hji : j = i
    · subst hji
      rw [Fs.setNode_nodes_self] at hj ⊢
      exact hlength.trans (hcomplete hj)
    · rw [s.setNode_nodes_of_ne hji] at hj ⊢
      exact h.complete j hj

theorem FsOk.append (h : FsOk g s ch ad) (hc : CursorOk (s.nodes i) (ch i) c) {cluster : Nat}
    (hopen : (s.nodes i).chainComplete = false)
    (hlt : (s.nodes i).lengthOfChain < (ch i).length)
    (hcl : cluster = (ch i).getD (s.nodes i).lengthOfChain fatFree) :
    ∃ t c' ad', appendCluster s i c cluster = some (t, c') ∧ FsOk g t ch ad' ∧
      Appended i s t (ch i) c' := by
  obtain ⟨t, c', ad', hrun, htables, happ⟩ := h.tables.append hc hlt hcl
  refine ⟨t, c', ad', hrun, .of_appended h.chains htables happ h.next ?_ ?_, happ⟩
  · intro j _
    exact h.complete j
  · intro hcomplete
    rw [hopen] at hcomplete
    cases hcomplete

theorem FsOk.grow (h : FsOk g s ch ad) (hc : CursorOk (s.nodes i) (ch i) c)
    (hend : (s.nodes i).lengthOfChain = (ch i).length) :
    (∃ t, allocateNext g s i c = some (t, none) ∧ FsOk g t ch ad) ∨
      ∃ t cluster u c' ch' ad', allocateNext g s i c = some (t, some cluster) ∧
        appendCluster t i c cluster = some (u, c') ∧ FsOk g u ch' ad' ∧
        CursorOk (u.nodes i) (ch' i) c' ∧
        (u.nodes i).lengthOfChain = (s.nodes i).lengthOfChain + 1 := by
  obtain ⟨t, r, halloc, hnone, hsome⟩ := allocateNext_spec h hc hend
  cases r with
  | none => exact .inl ⟨t, halloc, (hnone rfl).1⟩
  | some cluster =>
    have hgrown := hsome cluster rfl
    have hchains := hgrown.chains
    have htables := hgrown.tables
    have hcursor := hgrown.cursor
    have hlength := hgrown.length
    generalize hch : update ch i (ch i ++ [cluster]) = ch' at hchains htables
    have hchi : ch' i = ch i ++ [cluster] := by
      rw [← hch, update_self]
    have hchj : ∀ j, j ≠ i → ch' j = ch j := by
      intro j hj
      rw [← hch, update_of_ne hj]
    have hlen : (ch' i).length = (t.nodes i).lengthOfChain + 1 := by
      rw [hchi, hlength, hend, length_append]
      rfl
    have hcl : cluster = (ch' i).getD (t.nodes i).lengthOfChain fatFree := by
      rw [hchi, hlength, hend, getD_append_right _ _ _ _ (Nat.le_refl _), Nat.sub_self]
      rfl
    rw [← hchi] at hcursor
    obtain ⟨u, c', ad', hrun, htables', happ⟩ := htables.append hcursor (by omega) hcl
    refine .inr ⟨t, cluster, u, c', ch', ad', halloc, hrun, ?_, happ.cursor, ?_⟩
    · apply FsOk.of_appended hchains htables' happ hgrown.next
      · intro j hj hcomplete
        rw [hgrown.nodes j hj] at hcomplete ⊢
        rw [hchj j hj]
        exact h.complete j hcomplete
      · intro _
        exact hlen.symm
    · rw [happ.length, hlength]

theorem extendLoop_complete {left : Nat}
    (ih : ∀ {s : Fs ι} {c : Cursor} {ch ad : ι → List Nat}, FsOk g s ch ad →
      CursorOk (s.nodes i) (ch i) c → ∃ t err ch' ad',
        extendLoop g i true left s c = some (t, err) ∧
          Extended g i true left s t err ch ch' ad')
    (h : FsOk g s ch ad) (hc : CursorOk (s.nodes i) (ch i) c)
    (hend : (s.nodes i).lengthOfChain = (ch i).length) :
    ∃ t err ch' ad', (match allocateNext g s i c with
      | none => none
      | some (s, none) => some (s, some .enospc)
      | some (s, some cluster) =>
          match appendCluster s i c cluster with
          | none => none
          | some (s, c) => extendLoop g i true left s c) = some (t, err) ∧
      Extended g i true (left + 1) s t err ch ch' ad' := by
  rcases h.grow hc hend with
    ⟨t, halloc, hok⟩ | ⟨t, cluster, u, c', ch', ad', halloc, hrun, hok, hcur, hlen⟩
  · refine ⟨t, some .enospc, ch, ad, by rw [halloc], hok, ?_, ?_⟩
    · intro _ herr
      cases herr
    · intro hread
      cases hread
  · obtain ⟨v, err, ch'', ad'', hloop, hext⟩ := ih hok hcur
    refine ⟨v, err, ch'', ad'', ?_, hext.trans hlen ?_⟩
    · rw [halloc]
      simp only [hrun, hloop]
    · intro hread
      cases hread

theorem extendLoop_spec (create : Bool) (left : Nat) (h : FsOk g s ch ad)
    (hc : CursorOk (s.nodes i) (ch i) c)
    (hmode : create = true ∨ (s.nodes i).chainComplete = false) :
    ∃ t err ch' ad', extendLoop g i create left s c = some (t, err) ∧
      Extended g i create left s t err ch ch' ad' := by
  induction left generalizing s c ch ad with
  | zero => exact ⟨s, none, ch, ad, rfl, h, fun _ _ => rfl, fun _ => ⟨rfl, .inl rfl⟩⟩
  | succ left ih =>
    rw [extendLoop]
    by_cases hcomplete : (s.nodes i).chainComplete = true
    · have hcreate : create = true := by
        rcases hmode with hcreate | hopen
        · exact hcreate
        · rw [hopen] at hcomplete
          cases hcomplete
      subst hcreate
      rw [if_pos hcomplete]
      exact extendLoop_complete (fun h hc => ih h hc (.inl rfl)) h hc (h.complete i hcomplete)
    · have hopen : (s.nodes i).chainComplete = false := by simpa using hcomplete
      rw [if_neg hcomplete]
      obtain ⟨cluster, hread, ⟨hlt, heoc, hfree, hcl⟩ | ⟨hend, hstop⟩⟩ := readNext_spec h hc
      · obtain ⟨t, c', ad', hrun, hok, happ⟩ := h.append hc hopen hlt hcl
        obtain ⟨u, err, ch', ad'', hloop, hext⟩ :=
          ih hok happ.cursor (.inr (happ.complete.trans hopen))
        refine ⟨u, err, ch', ad'', ?_, hext.trans happ.length (fun _ => rfl)⟩
        simp only [hread, heoc, hfree, or_self, if_false, hrun, hloop]
      · have hset := h.setNode (i := i) (d := { s.nodes i with chainComplete := true }) rfl rfl rfl
          rfl (fun _ => hend)
        simp only [hread, hstop, if_true]
        cases create with
        | false =>
          refine ⟨_, none, ch, ad, rfl, hset, ?_, ?_⟩
          · intro hcreate
            cases hcreate
          · intro _
            refine ⟨rfl, .inr ?_⟩
            rw [Fs.setNode_nodes_self]
            exact hend
        | true =>
          rw [if_pos rfl]
          obtain ⟨t, err, ch', ad', hrun, hext⟩ :=
            extendLoop_complete (fun h hc => ih h hc (.inl rfl)) hset (c := c)
              (by rw [Fs.setNode_nodes_self]; exact ⟨hc.table, hc.offs, hc.prev⟩)
              (by rw [Fs.setNode_nodes_self]; exact hend)
          refine ⟨t, err, ch', ad', hrun, hext.ok, ?_, ?_⟩
          · intro hcreate herr
            have hlen := hext.created hcreate herr
            rwa [Fs.setNode_nodes_self] at hlen
          · intro hfalse
            cases hfalse

theorem fatExtendChain_spec (h : FsOk g s ch ad) (newLastCluster : Nat) (create : Bool) :
    ∃ t err ch' ad', fatExtendChain g s i newLastCluster create = some (t, err) ∧
      FsOk g t ch' ad' ∧
      (newLastCluster + 1 < 2 ^ 64 → create = true → err = none →
        newLastCluster < (t.nodes i).lengthOfChain) ∧
      (newLastCluster + 1 < 2 ^ 64 → create = false → ch' = ch ∧
        (newLastCluster < (t.nodes i).lengthOfChain ∨
          (t.nodes i).lengthOfChain = (ch i).length)) := by
  unfold fatExtendChain
  by_cases hdone : newLastCluster < (s.nodes i).lengthOfChain ∨
      create = false ∧ (s.nodes i).chainComplete = true
  · refine ⟨s, none, ch, ad, if_pos hdone, h, ?_, ?_⟩
    · intro _ hcreate _
      rcases hdone with hlt | ⟨hread, -⟩
      · exact hlt
      · rw [hcreate] at hread
        cases hread
    · intro _ _
      refine ⟨rfl, ?_⟩
      rcases hdone with hlt | ⟨-, hcomplete⟩
      · exact .inl hlt
      · exact .inr (h.complete i hcomplete)
  · rw [if_neg hdone]
    rw [not_or, Nat.not_lt, not_and] at hdone
    obtain ⟨hle, hopen⟩ := hdone
    obtain ⟨c, hstart, hc⟩ := h.tables.startCursor (i := i)
    obtain ⟨t, err, ch', ad', hloop, hext⟩ :=
      extendLoop_spec create ((newLastCluster + 1 - (s.nodes i).lengthOfChain) % 2 ^ 64) h hc (by
        cases create with
        | true => exact .inl rfl
        | false => exact .inr (by simpa using hopen rfl))
    simp only [hstart, hloop]
    refine ⟨_, err, ch', ad', rfl, ?_, ?_, ?_⟩
    · exact hext.ok.setNode rfl rfl rfl rfl (hext.ok.complete i)
    · intro hlt hcreate herr
      have hlen := hext.created hcreate herr
      rw [Nat.mod_eq_of_lt (by omega)] at hlen
      rw [Fs.setNode_nodes_self]
      show newLastCluster < (t.nodes i).lengthOfChain
      omega
    · intro hlt hread
      obtain ⟨hch, hlen⟩ := hext.read hread
      rw [Nat.mod_eq_of_lt (by omega)] at hlen
      refine ⟨hch, ?_⟩
      rw [Fs.setNode_nodes_self]
      rcases hlen with hlen | hlen
      · refine .inl (show newLastCluster < (t.nodes i).lengthOfChain from ?_)
        omega
      · exact .inr hlen

end Extend

section Lookup

variable {heap : Nat → Option Table} {d : DiskNode} {chain tables : List Nat}

theorem NodeOk.walkTables (h : NodeOk heap d chain tables) (count j : Nat)
    (hj : j + count < tables.length) :
    walkTables heap count (tables.getD j 0) = some (tables.getD (j + count) 0) := by
  induction count generalizing j with
  | zero => rfl
  | succ count ih =>
    obtain ⟨table, htable, hnext, -⟩ := h.table j (by omega)
    rw [Fatfs.walkTables, htable]
    simp only [hnext]
    rw [ih (j + 1) (by omega), Nat.add_right_comm, Nat.add_assoc]

theorem NodeOk.look (h : NodeOk heap d chain tables) {cluster : Nat}
    (hlt : cluster < d.lengthOfChain) :
    ∃ a table, Fatfs.walkTables heap (cluster / clustersPerTable) d.first = some a ∧
      heap a = some table ∧
      table.cluster (cluster % clustersPerTable) = chain.getD cluster fatFree := by
  have hcount := h.count
  have hdiv : cluster / clustersPerTable < tables.length := by
    unfold clustersPerTable at hcount ⊢
    omega
  obtain ⟨table, htable, -, hok⟩ := h.table _ hdiv
  refine ⟨_, table, ?_, htable, ?_⟩
  · rw [h.first, h.walkTables _ _ (by omega), Nat.zero_add]
  · have hsum := Nat.div_add_mod cluster clustersPerTable
    rw [hok _ (Nat.mod_lt _ (by decide)) (by omega), hsum]

variable [DecidableEq ι]

theorem fatGetcluster_spec (h : FsOk g s ch ad) (cluster : Nat) (create : Bool) :
    2 ^ 64 ≤ cluster + 1 ∧ fatGetcluster g s i cluster create = none ∨
      ∃ t r ch' ad', fatGetcluster g s i cluster create = some (t, r) ∧ FsOk g t ch' ad' ∧
        ∀ c, r = .ok c → cluster < (ch' i).length ∧ c = (ch' i).getD cluster fatFree := by
  -- the walk down the tables, in a state where the cluster is there
  have hlook : ∀ s ch ad, FsOk g s ch ad → cluster < (s.nodes i).lengthOfChain →
      ∃ a table, walkTables s.heap (cluster / clustersPerTable) (s.nodes i).first = some a ∧
        s.heap a = some table ∧ cluster < (ch i).length ∧
        table.cluster (cluster % clustersPerTable) = (ch i).getD cluster fatFree := by
    intro s ch ad h hlt
    obtain ⟨a, table, hwalk, htable, hcl⟩ := (h.tables.node i).look hlt
    exact ⟨a, table, hwalk, htable, Nat.lt_of_lt_of_le hlt (h.tables.node i).length_le, hcl⟩
  unfold fatGetcluster
  by_cases hle : (s.nodes i).lengthOfChain ≤ cluster
  · rw [if_pos hle]
    obtain ⟨t, err, ch', ad', hrun, hok, hcreated, -⟩ :=
      fatExtendChain_spec (i := i) h cluster create
    cases err with
    | some err =>
      refine .inr ⟨t, .error err, ch', ad', by simp only [hrun], hok, ?_⟩
      intro c hc
      cases hc
    | none =>
      by_cases hle' : (t.nodes i).lengthOfChain ≤ cluster
      · cases create with
        | true =>
          refine .inl ⟨?_, ?_⟩
          · by_contra hlt
            exact absurd (hcreated (by omega) rfl rfl) (Nat.not_lt.mpr hle')
          · simp [hrun, hle']
        | false =>
          refine .inr ⟨t, .error .einval, ch', ad', ?_, hok, ?_⟩
          · simp [hrun, hle']
          · intro c hc
            cases hc
      · obtain ⟨a, table, hwalk, htable, hlt, hcl⟩ := hlook t ch' ad' hok (Nat.not_le.mp hle')
        refine .inr ⟨t, .ok (table.cluster (cluster % clustersPerTable)), ch', ad', ?_, hok, ?_⟩
        · simp only [hrun, hle', if_false, hwalk, htable]
        · intro c hc
          cases hc
          exact ⟨hlt, hcl⟩
  · rw [if_neg hle]
    obtain ⟨a, table, hwalk, htable, hlt, hcl⟩ := hlook s ch ad h (Nat.not_le.mp hle)
    refine .inr ⟨s, .ok (table.cluster (cluster % clustersPerTable)), ch, ad, ?_, h, ?_⟩
    · simp only [hwalk, htable]
    · intro c hc
      cases hc
      exact ⟨hlt, hcl⟩

end Lookup

end Hurd.Fatfs
