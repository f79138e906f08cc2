import Hurd.Fatfs.ClusterExtend
import Mathlib.Order.Interval.Finset.Nat

/-!
# Truncation of cluster chains

`fat_truncate_node` cuts off a chain and the tables. It makes the wrong table the last one, or none,
unless there is only one table or none is left. Every run in which this does not happen leaves the
file system consistent.
-/

namespace Hurd.Fatfs

open Function List Option

variable {ι : Type*} {g : Geometry ι} {s t : Fs ι} {i : ι} {ch ad : ι → List Nat}

section Chains

theorem length_le_of_bounds {l : List Nat} (lo hi : Nat) (hnodup : l.Nodup)
    (hbounds : ∀ a ∈ l, lo ≤ a ∧ a < hi) : l.length ≤ hi - lo := by
  rw [← toFinset_card_of_nodup hnodup, ← Nat.card_Ico]
  apply Finset.card_le_card
  intro a ha
  rw [Finset.mem_Ico]
  exact hbounds a (mem_toFinset.mp ha)

theorem ChainsOk.length_le {fat : Nat → Nat} (h : ChainsOk g fat ch) (i : ι) :
    (ch i).length ≤ g.nrOfClusters := by
  have hle := length_le_of_bounds 2 (g.nrOfClusters + 2) (h.scattered.nodup i) (h.valid i)
  omega

theorem TablesOk.length_le (h : TablesOk s ch ad) (i : ι) : (ad i).length ≤ s.brk := by
  have hle := length_le_of_bounds 0 s.brk (h.scattered.nodup i)
    (fun a ha => ⟨Nat.zero_le a, (h.owned i a ha).2⟩)
  omega

variable [DecidableEq ι] {fat fat' : Nat → Nat} {keep : Nat}

theorem ChainsOk.take (h : ChainsOk g fat ch) (hkeep : keep ≤ (ch i).length)
    (hlast : ∀ k, k + 1 = keep → fat' ((ch i).getD k fatFree) = fatEoc)
    (hpurged : ∀ m, keep ≤ m → m < (ch i).length → fat' ((ch i).getD m fatFree) = fatFree)
    (hother : ∀ x, (∀ m, keep ≤ m + 1 → m < (ch i).length → x ≠ (ch i).getD m fatFree) →
      fat' x = fat x) :
    ChainsOk g fat' (update ch i ((ch i).take keep)) := by
  have hmem : ∀ {x j}, x ∈ update ch i ((ch i).take keep) j → x ∈ ch j := by
    intro x j hx
    by_cases hj : j = i
    · subst hj
      rw [update_self] at hx
      exact mem_of_mem_take hx
    · rwa [update_of_ne hj] at hx
  refine ⟨?_, h.scattered.take keep, fun j x hx => h.valid j x (hmem hx), ?_⟩
  · intro j
    by_cases hj : j = i
    · subst hj
      rw [update_self]
      apply (h.linked j).take hkeep
      · intro k hk
        rw [getD_congr fatFree (by omega)]
        exact hlast k hk
      · intro k hk
        apply hother
        intro m hm hlt heq
        rw [getD_congr fatFree (by omega)] at heq
        have hkm := (h.scattered j j k m (by omega) hlt heq).2
        omega
    · rw [update_of_ne hj]
      apply (h.linked j).congr
      intro x hx
      apply hother
      intro m _ hlt heq
      apply hj
      apply h.scattered.eq_of_mem hx
      rw [heq]
      exact getD_mem hlt
  · intro x hx
    by_cases hpurge : ∃ m, keep ≤ m ∧ m < (ch i).length ∧ x = (ch i).getD m fatFree
    · obtain ⟨m, hm, hlt, rfl⟩ := hpurge
      refine iff_of_true (hpurged m hm hlt) ?_
      intro j hin
      have hj := h.scattered.eq_of_mem (hmem hin) (getD_mem hlt)
      subst hj
      rw [update_self, mem_take_iff (d := fatFree)] at hin
      obtain ⟨k, hk, hkeep', heq⟩ := hin
      have hkm := (h.scattered j j k m hk hlt heq).2
      omega
    · by_cases hend : ∃ k, k + 1 = keep ∧ x = (ch i).getD k fatFree
      · obtain ⟨k, hk, rfl⟩ := hend
        refine iff_of_false ?_ ?_
        · rw [hlast k hk]
          decide
        · intro hall
          apply hall i
          rw [update_self]
          exact mem_take_iff.mpr ⟨k, by omega, by omega, rfl⟩
      · have hsame : fat' x = fat x := by
          apply hother
          intro m hm hlt heq
          by_cases hkm : keep ≤ m
          · exact hpurge ⟨m, hkm, hlt, heq⟩
          · exact hend ⟨m, by omega, heq⟩
        rw [hsame, h.free x hx]
        constructor
        · intro hall j hin
          exact hall j (hmem hin)
        · intro hall j hin
          apply hall j
          by_cases hj : j = i
          · subst hj
            rw [update_self, mem_take_iff (d := fatFree)]
            obtain ⟨k, hk, heq⟩ := getElem_of_mem hin
            have hget : (ch j).getD k fatFree = x := (getD_eq_getElem _ _ hk).trans heq
            refine ⟨k, hk, ?_, hget⟩
            by_contra hkeep'
            exact hpurge ⟨k, by omega, hk, hget.symm⟩
          · rwa [update_of_ne hj]

end Chains

section Tables

variable {d : DiskNode} {chain tables : List Nat}

/-- A state that differs in the file allocation table only. -/
structure FatOnly (s t : Fs ι) : Prop where
  nextFreeCluster : t.nextFreeCluster = s.nextFreeCluster
  heap : t.heap = s.heap
  brk : t.brk = s.brk
  nodes : t.nodes = s.nodes

/-- The clusters from a position on are freed, and no others. -/
structure Purged (fat fat' : Nat → Nat) (chain : List Nat) (pos length : Nat) : Prop where
  purged : ∀ m, pos ≤ m → m < length → fat' (chain.getD m fatFree) = fatFree
  other : ∀ x, (∀ m, pos ≤ m → m < length → x ≠ chain.getD m fatFree) → fat' x = fat x

theorem Purged.step {fat fat' : Nat → Nat} {pos length : Nat} (hpos : pos < length)
    (h : Purged (update fat (chain.getD pos fatFree) fatFree) fat' chain (pos + 1) length) :
    Purged fat fat' chain pos length := by
  constructor
  · intro m hm hlt
    by_cases hlater : ∃ m', pos + 1 ≤ m' ∧ m' < length ∧
        chain.getD m fatFree = chain.getD m' fatFree
    · obtain ⟨m', hm', hlt', heq⟩ := hlater
      rw [heq]
      exact h.purged m' hm' hlt'
    · have hmp : m = pos := by
        by_contra hne
        exact hlater ⟨m, by omega, hlt, rfl⟩
      rw [h.other _ (fun m' hm' hlt' heq => hlater ⟨m', hm', hlt', heq⟩), hmp, update_self]
  · intro x hx
    rw [h.other x (fun m hm hlt => hx m (by omega) hlt),
      update_of_ne (hx pos (Nat.le_refl _) hpos)]

theorem NodeOk.purge (h : NodeOk s.heap d chain tables)
    (hvalid : ∀ m < d.lengthOfChain, g.Valid (chain.getD m fatFree)) (left k offs : Nat)
    (hoffs : offs ≤ clustersPerTable) (hleft : clustersPerTable * k + offs + left = d.lengthOfChain) :
    ∃ t, purge g left s (tables.getD k 0) offs = some t ∧ FatOnly s t ∧
      Purged s.fat t.fat chain (clustersPerTable * k + offs) d.lengthOfChain := by
  induction left generalizing s k offs with
  | zero =>
    refine ⟨s, rfl, ⟨rfl, rfl, rfl, rfl⟩, ?_, fun _ _ => rfl⟩
    intro m hm hlt
    omega
  | succ left ih =>
    have hcount := h.count
    have hat : ∃ k' o, (if offs = clustersPerTable then
          (s.heap (tables.getD k 0)).map fun t => (t.next, 0)
        else some (tables.getD k 0, offs)) = some (tables.getD k' 0, o) ∧
        o < clustersPerTable ∧ clustersPerTable * k' + o = clustersPerTable * k + offs ∧
        k' < tables.length := by
      unfold clustersPerTable at hcount hoffs hleft ⊢
      by_cases hfull : offs = 1024
      · obtain ⟨table, htable, hnext, -⟩ := h.table k (by omega)
        refine ⟨k + 1, 0, ?_, by omega, by omega, by omega⟩
        rw [if_pos hfull, htable, map_some, hnext]
      · exact ⟨k, offs, if_neg hfull, by omega, by omega, by omega⟩
    obtain ⟨k', o, hat, ho, hpos, hk'⟩ := hat
    obtain ⟨table, htable, -, hok⟩ := h.table k' hk'
    have hcl := hok o ho (by omega)
    rw [hpos] at hcl
    have hv := hvalid (clustersPerTable * k + offs) (by omega)
    obtain ⟨t, hrun, hsame, hpurged⟩ := ih (s := { s with
      fat := update s.fat (chain.getD (clustersPerTable * k + offs) fatFree) fatFree })
      h k' (o + 1) ho (by omega)
    refine ⟨t, ?_, ⟨hsame.nextFreeCluster, hsame.heap, hsame.brk, hsame.nodes⟩, ?_⟩
    · rw [Fatfs.purge]
      simp only [hat, htable, fatWriteNextCluster, hcl, hv, if_true, hrun]
    · rw [← Nat.add_assoc, hpos] at hpurged
      exact hpurged.step (by omega)

/-- The tables from a position on are freed, and no others. -/
structure Freed (heap heap' : Nat → Option Table) (tables : List Nat) (k : Nat) : Prop where
  freed : ∀ m, k ≤ m → m < tables.length → heap' (tables.getD m 0) = none
  other : ∀ a, (∀ m, k ≤ m → m < tables.length → a ≠ tables.getD m 0) → heap' a = heap a

theorem Freed.of_le {heap : Nat → Option Table} {k : Nat} (hle : tables.length ≤ k) :
    Freed heap heap tables k := by
  refine ⟨?_, fun _ _ => rfl⟩
  intro m hm hlt
  omega

theorem freeTables_spec {heap : Nat → Option Table}
    (hinj : ∀ k m, k < tables.length → m < tables.length →
      tables.getD k 0 = tables.getD m 0 → k = m)
    (hne : ∀ a ∈ tables, a ≠ 0) (fuel k : Nat) (hfuel : tables.length ≤ k + fuel)
    (hlink : ∀ m, k ≤ m → m < tables.length → ∃ table, heap (tables.getD m 0) = some table ∧
      table.next = tables.getD (m + 1) 0) :
    ∃ heap', freeTables fuel heap (tables.getD k 0) = some heap' ∧ Freed heap heap' tables k := by
  induction fuel generalizing k heap with
  | zero =>
    have hzero : tables.getD k 0 = 0 := getD_eq_default _ _ (by omega)
    exact ⟨heap, by rw [freeTables, if_pos hzero], .of_le (by omega)⟩
  | succ fuel ih =>
    by_cases hk : tables.length ≤ k
    · have hzero : tables.getD k 0 = 0 := getD_eq_default _ _ hk
      exact ⟨heap, by rw [freeTables, if_pos hzero], .of_le hk⟩
    · have hlt : k < tables.length := by omega
      obtain ⟨table, htable, hnext⟩ := hlink k (Nat.le_refl k) hlt
      have hother : ∀ m, k + 1 ≤ m → m < tables.length → tables.getD m 0 ≠ tables.getD k 0 := by
        intro m hm hlt' heq
        have hmk := hinj m k hlt' hlt heq
        omega
      have hlink' : ∀ m, k + 1 ≤ m → m < tables.length → ∃ table,
          update heap (tables.getD k 0) none (tables.getD m 0) = some table ∧
            table.next = tables.getD (m + 1) 0 := by
        intro m hm hlt'
        rw [update_of_ne (hother m hm hlt')]
        exact hlink m (by omega) hlt'
      obtain ⟨heap', hrun, hfreed⟩ := ih (k + 1) (by omega) hlink'
      refine ⟨heap', ?_, ?_, ?_⟩
      · rw [freeTables, if_neg (hne _ (getD_mem hlt)), htable]
        simp only [hnext, hrun]
      · intro m hm hlt'
        by_cases hmk : m = k
        · subst hmk
          rw [hfreed.other _ (fun m' hm' hlt'' => (hother m' hm' hlt'').symm),
            update_self]
        · exact hfreed.freed m (by omega) hlt'
      · intro a ha
        rw [hfreed.other a (fun m hm hlt' => ha m (by omega) hlt'),
          update_of_ne (ha k (Nat.le_refl k) hlt)]

theorem TablesOk.freeTables (h : TablesOk s ch ad) (i : ι) (k : Nat) :
    ∃ heap', Fatfs.freeTables s.brk s.heap ((ad i).getD k 0) = some heap' ∧
      Freed s.heap heap' (ad i) k := by
  have hlen := h.length_le i
  apply freeTables_spec
  · intro k m hk hm heq
    exact (h.scattered i i k m hk hm heq).2
  · intro a ha
    exact (h.owned i a ha).1
  · omega
  · intro m _ hm
    obtain ⟨table, htable, hnext, -⟩ := (h.node i).table m hm
    exact ⟨table, htable, hnext⟩

theorem TablesOk.freed_other {heap' : Nat → Option Table} {k : Nat} (h : TablesOk s ch ad)
    (hfreed : Freed s.heap heap' (ad i) k) {j : ι} (hj : j ≠ i) :
    ∀ a ∈ ad j, heap' a = s.heap a := by
  intro a ha
  apply hfreed.other
  intro m _ hm heq
  apply hj
  apply h.scattered.eq_of_mem ha
  rw [heq]
  exact getD_mem hm

end Tables

section Truncate

variable [DecidableEq ι]

theorem truncateAll_spec (h : FsOk g s ch ad)
    (hlength : (s.nodes i).lengthOfChain = (ch i).length) :
    ∃ t, truncateAll g s i = some t ∧
      FsOk g t (update ch i []) (update ad i []) := by
  have hnode := h.tables.node i
  have hvalid : ∀ m < (s.nodes i).lengthOfChain, g.Valid ((ch i).getD m fatFree) := by
    intro m hm
    exact h.chains.valid i _ (getD_mem (by omega))
  obtain ⟨t, hpurge, hsame, hpurged⟩ :=
    NodeOk.purge (g := g) (s := s.setNode i { s.nodes i with startCluster := 0, last := 0 })
      hnode hvalid (s.nodes i).lengthOfChain 0 0 (by decide) (by omega)
  obtain ⟨heap', hfree, hfreed⟩ := h.tables.freeTables i 0
  rw [← hnode.first] at hpurge hfree
  have hbrk : t.brk = s.brk := hsame.brk
  have hheap : t.heap = s.heap := hsame.heap
  have hti : t.nodes i = { s.nodes i with startCluster := 0, last := 0 } := by
    rw [hsame.nodes, Fs.setNode_nodes_self]
  have htj : ∀ j, j ≠ i → t.nodes j = s.nodes j := by
    intro j hj
    rw [hsame.nodes, s.setNode_nodes_of_ne hj]
  obtain ⟨u, hu⟩ : ∃ u, u =
      { t.setNode i { t.nodes i with first := 0, lengthOfChain := 0 } with heap := heap' } :=
    ⟨_, rfl⟩
  have hui : u.nodes i = { s.nodes i with
      startCluster := 0, first := 0, last := 0, lengthOfChain := 0 } := by
    rw [hu]
    show (t.setNode i _).nodes i = _
    rw [Fs.setNode_nodes_self, hti]
  have huj : ∀ j, j ≠ i → u.nodes j = s.nodes j := by
    intro j hj
    rw [hu, ← htj j hj]
    exact t.setNode_nodes_of_ne hj _
  have huheap : u.heap = heap' := by rw [hu]
  have hufat : u.fat = t.fat := by rw [hu]; rfl
  have hubrk : u.brk = s.brk := by rw [hu, ← hbrk]; rfl
  refine ⟨u, ?_, ?_, ?_, ?_, ?_⟩
  · simp only [truncateAll, hpurge, hbrk, hheap, hfree, hu]
  · have hchains : ChainsOk g t.fat (update ch i ((ch i).take 0)) := by
      apply h.chains.take (Nat.zero_le _)
      · intro k hk
        cases hk
      · intro m hm hlt
        exact hpurged.purged m hm (by omega)
      · intro x hx
        apply hpurged.other
        intro m _ hlt
        exact hx m (Nat.zero_le _) (by omega)
    rw [take_zero] at hchains
    rw [hufat]
    exact hchains
  · apply h.tables.update
    · rw [update_self, hui]
      refine ⟨rfl, Nat.zero_le _, rfl, rfl, ?_, ?_⟩
      · show 0 = (0 + 1023) / 1024
        decide
      · intro k hk
        cases hk
    · intro j hj
      exact ⟨huj j hj, update_of_ne hj ..⟩
    · intro j hj
      rw [huheap]
      exact h.tables.freed_other hfreed hj
    · have hscattered := h.tables.scattered.take (i := i) 0
      rwa [take_zero] at hscattered
    · intro a ha
      cases ha
    · omega
  · rw [hu]
    show g.Valid t.nextFreeCluster
    rw [hsame.nextFreeCluster]
    exact h.next
  · intro j hj
    by_cases hji : j = i
    · subst hji
      rw [hui, update_self]
      rfl
    · rw [huj j hji] at hj ⊢
      rw [update_of_ne hji]
      exact h.complete j hj

/-- Some of the clusters in the first table are kept. The last table is not changed. -/
theorem truncateTo_spec {keep : Nat} (h : FsOk g s ch ad)
    (hlength : (s.nodes i).lengthOfChain = (ch i).length) (hpos : 0 < keep)
    (hkeep : keep < (ch i).length) (htable : keep ≤ clustersPerTable) :
    ∃ t, truncateTo g s i keep = some t ∧
      t.nodes = update s.nodes i { s.nodes i with lengthOfChain := keep } ∧
      t.nextFreeCluster = s.nextFreeCluster ∧ t.brk = s.brk ∧ Freed s.heap t.heap (ad i) 1 ∧
      ChainsOk g t.fat (update ch i ((ch i).take keep)) := by
  have hnode := h.tables.node i
  have hcount := hnode.count
  have hvalid : ∀ m < (s.nodes i).lengthOfChain, g.Valid ((ch i).getD m fatFree) := by
    intro m hm
    exact h.chains.valid i _ (getD_mem (by omega))
  have htables : 0 < (ad i).length := by
    unfold clustersPerTable at hcount
    omega
  obtain ⟨table, hheap, hnext, hok⟩ := hnode.table 0 htables
  have hcluster : table.cluster (keep - 1) = (ch i).getD (keep - 1) fatFree := by
    have hcl := hok (keep - 1) (by omega) (by omega)
    rwa [Nat.mul_zero, Nat.zero_add] at hcl
  have hdiv : (keep - 1) / clustersPerTable = 0 := Nat.div_eq_of_lt (by omega)
  have hmod : (keep - 1) % clustersPerTable = keep - 1 := Nat.mod_eq_of_lt (by omega)
  have hsub : keep - 1 + 1 = keep := Nat.sub_add_cancel hpos
  obtain ⟨u, hu⟩ : ∃ u : Fs ι, u =
      { s with fat := update s.fat ((ch i).getD (keep - 1) fatFree) fatEoc } := ⟨_, rfl⟩
  obtain ⟨v, hpurge, hsame, hpurged⟩ :=
    NodeOk.purge (g := g) (s := u) (by rw [hu]; exact hnode) hvalid
      ((s.nodes i).lengthOfChain - keep) 0 keep htable (by omega)
  obtain ⟨heap', hfree, hfreed⟩ := h.tables.freeTables i 1
  rw [← hnode.first] at hheap hpurge
  rw [Nat.mul_zero, Nat.zero_add, hu] at hpurged
  have hwrite : fatWriteNextCluster g s ((ch i).getD (keep - 1) fatFree) fatEoc = some u := by
    rw [fatWriteNextCluster, if_pos (hvalid _ (by omega)), hu]
  have hvheap : v.heap = s.heap := by
    rw [hsame.heap, hu]
  have hvbrk : v.brk = s.brk := by
    rw [hsame.brk, hu]
  have hvnodes : v.nodes = s.nodes := by
    rw [hsame.nodes, hu]
  refine ⟨{ v.setNode i { v.nodes i with lengthOfChain := keep } with heap := heap' },
    ?_, ?_, ?_, hvbrk, hfreed, ?_⟩
  · have hself : s.setNode i { s.nodes i with last := (s.nodes i).last } = s := s.setNode_eq_self i
    simp only [truncateTo, hdiv, hmod, walkLast, hself, hheap, hcluster, hwrite, hsub, hpurge,
      hvbrk, hvheap, hnext, hfree]
  · show update v.nodes i _ = _
    rw [hvnodes]
  · show v.nextFreeCluster = s.nextFreeCluster
    rw [hsame.nextFreeCluster, hu]
  · apply h.chains.take (Nat.le_of_lt hkeep)
    · intro k hk
      have hk' : k = keep - 1 := by omega
      show v.fat _ = fatEoc
      rw [hpurged.other, hk']
      · exact update_self ..
      · intro m hm hlt heq
        have hkm := (h.chains.scattered i i k m (by omega) (by omega) heq).2
        omega
    · intro m hm hlt
      exact hpurged.purged m hm (by omega)
    · intro x hx
      show v.fat x = s.fat x
      rw [hpurged.other x (fun m hm hlt => hx m (by omega) (by omega))]
      exact update_of_ne (hx (keep - 1) (by omega) (by omega)) ..

theorem truncateTo_ok {keep : Nat} (h : FsOk g s ch ad)
    (hlength : (s.nodes i).lengthOfChain = (ch i).length) (hpos : 0 < keep)
    (hkeep : keep < (ch i).length) (htable : (ch i).length ≤ clustersPerTable) :
    ∃ t, truncateTo g s i keep = some t ∧
      FsOk g t (update ch i ((ch i).take keep)) ad := by
  obtain ⟨t, hrun, hnodes, hfree, hbrk, hfreed, hchains⟩ :=
    truncateTo_spec h hlength hpos hkeep (by omega)
  have hnode := h.tables.node i
  have hcount := hnode.count
  have hone : (ad i).length = 1 := by
    unfold clustersPerTable at hcount htable
    omega
  have hheap : t.heap = s.heap := by
    funext a
    apply hfreed.other
    intro m hm hlt
    omega
  have hti := congrFun hnodes i
  rw [update_self] at hti
  have htj : ∀ j, j ≠ i → t.nodes j = s.nodes j := by
    intro j hj
    rw [hnodes, update_of_ne hj]
  have hlen : ((ch i).take keep).length = keep := by
    rw [length_take]
    omega
  refine ⟨t, hrun, hchains, ?_, ?_, ?_⟩
  · rw [← update_eq_self i ad]
    apply h.tables.update (i := i)
    · rw [update_self, hti, hheap]
      refine ⟨?_, ?_, hnode.first, hnode.last, ?_, ?_⟩
      · rw [getD_take_of_lt hpos]
        exact hnode.start
      · rw [hlen]
      · show (ad i).length = (keep + 1023) / 1024
        unfold clustersPerTable at htable
        omega
      · intro k hk
        obtain ⟨table, htab, hnext, hok⟩ := hnode.table k hk
        refine ⟨table, htab, hnext, ?_⟩
        intro o ho hind
        replace hind : clustersPerTable * k + o < keep := hind
        rw [hok o ho (by omega), getD_take_of_lt hind]
    · intro j hj
      exact ⟨htj j hj, update_of_ne hj ..⟩
    · intro j _ a _
      rw [hheap]
    · rw [update_eq_self]
      exact h.tables.scattered
    · rw [hbrk]
      exact h.tables.owned i
    · omega
  · rw [hfree]
    exact h.next
  · intro j hj
    by_cases hji : j = i
    · subst hji
      rw [hti, update_self, hlen]
    · rw [htj j hji] at hj ⊢
      rw [update_of_ne hji]
      exact h.complete j hj

theorem truncateTo_dangling {keep : Nat} (h : FsOk g s ch ad)
    (hlength : (s.nodes i).lengthOfChain = (ch i).length) (hpos : 0 < keep)
    (hkeep : keep ≤ clustersPerTable) (htable : clustersPerTable < (ch i).length) :
    ∃ t, truncateTo g s i keep = some t ∧ (t.nodes i).lengthOfChain = keep ∧
      t.heap (t.nodes i).last = none := by
  obtain ⟨t, hrun, hnodes, -, -, hfreed, -⟩ :=
    truncateTo_spec h hlength hpos (by omega) hkeep
  have hcount := (h.tables.node i).count
  have hlast := (h.tables.node i).last
  have hti := congrFun hnodes i
  rw [update_self] at hti
  have htwo : 1 < (ad i).length := by
    unfold clustersPerTable at hcount htable
    omega
  refine ⟨t, hrun, by rw [hti], ?_⟩
  rw [hti]
  show t.heap (s.nodes i).last = none
  rw [hlast]
  exact hfreed.freed _ (by omega) (by omega)

theorem fatExtendChain_all (h : FsOk g s ch ad) :
    ∃ t err ad', fatExtendChain g s i fatEoc false = some (t, err) ∧ FsOk g t ch ad' ∧
      (t.nodes i).lengthOfChain = (ch i).length := by
  obtain ⟨t, err, ch', ad', hrun, hok, -, hread⟩ := fatExtendChain_spec (i := i) h fatEoc false
  obtain ⟨hch, hlen⟩ := hread (by decide) rfl
  subst hch
  refine ⟨t, err, ad', hrun, hok, ?_⟩
  have hle := (hok.tables.node i).length_le
  have hnr := hok.chains.length_le i
  have hsmall := g.small
  rcases hlen with hlen | hlen
  · omega
  · exact hlen

theorem fatTruncateNode_ok {keep : Nat} (h : FsOk g s ch ad)
    (hkeep : keep = 0 ∨ keep = (ch i).length ∨ (ch i).length ≤ clustersPerTable)
    (hrun : fatTruncateNode g s i keep = some t) : ∃ ch' ad', FsOk g t ch' ad' := by
  obtain ⟨u, err, ad', hext, hok, hlen⟩ := fatExtendChain_all (i := i) h
  unfold fatTruncateNode at hrun
  split at hrun
  · cases hrun
  · simp only [hext] at hrun
    split at hrun
    · cases hrun
      exact ⟨ch, ad', hok⟩
    · rename_i hne
      split at hrun
      · cases hrun
      · rename_i hle
        split at hrun
        · obtain ⟨v, hall, hok'⟩ := truncateAll_spec hok hlen
          rw [hall] at hrun
          cases hrun
          exact ⟨_, _, hok'⟩
        · rename_i hpos
          obtain ⟨v, hto, hok'⟩ :=
            truncateTo_ok hok hlen (show 0 < keep by omega) (by omega) (by omega)
          rw [hto] at hrun
          cases hrun
          exact ⟨_, _, hok'⟩

theorem fatTruncateNode_dangling {keep : Nat} (h : FsOk g s ch ad) (hroot : i ≠ g.root)
    (hpos : 0 < keep) (hkeep : keep ≤ clustersPerTable) (htable : clustersPerTable < (ch i).length) :
    ∃ t, fatTruncateNode g s i keep = some t ∧ (t.nodes i).lengthOfChain = keep ∧
      t.heap (t.nodes i).last = none := by
  obtain ⟨u, err, ad', hext, hok, hlen⟩ := fatExtendChain_all (i := i) h
  obtain ⟨t, hrun, hlength, hlast⟩ := truncateTo_dangling hok hlen hpos hkeep htable
  refine ⟨t, ?_, hlength, hlast⟩
  unfold fatTruncateNode
  rw [if_neg (fun hand => hroot hand.1)]
  simp only [hext]
  rw [if_neg (by omega), if_neg (by omega), if_neg (by omega), hrun]

end Truncate

section Runs

/-- The chain in the file allocation table from a cluster on. -/
def follow (fat : Nat → Nat) : Nat → Nat → List Nat
  | 0, _ => []
  | fuel + 1, c => if c = fatFree ∨ c = fatEoc then [] else c :: follow fat fuel (fat c)

def diskChain (g : Geometry ι) (s : Fs ι) (i : ι) : List Nat :=
  follow s.fat g.nrOfClusters (s.nodes i).startCluster

/-- The cluster that the tables of a node have at a position. -/
def cachedCluster (s : Fs ι) (i : ι) (k : Nat) : Option Nat :=
  match walkTables s.heap (k / clustersPerTable) (s.nodes i).first with
  | none => none
  | some a => (s.heap a).map fun table => table.cluster (k % clustersPerTable)

/-- The chains of different files are disjoint and end, and a cluster is free exactly when it is on
none of them. -/
structure DiskOk (g : Geometry ι) (s : Fs ι) : Prop where
  start : ∀ i, (s.nodes i).startCluster = (diskChain g s i).getD 0 fatFree
  chains : ChainsOk g s.fat (diskChain g s)

/-- The tables of a node list its first clusters, and the last table has the last of these. -/
structure CacheOk (g : Geometry ι) (s : Fs ι) (i : ι) : Prop where
  listed : ∀ k < (s.nodes i).lengthOfChain, cachedCluster s i k = (diskChain g s i)[k]?
  length_le : (s.nodes i).lengthOfChain ≤ (diskChain g s i).length
  last : 0 < (s.nodes i).lengthOfChain →
    walkTables s.heap (((s.nodes i).lengthOfChain - 1) / clustersPerTable) (s.nodes i).first =
      some (s.nodes i).last
  last_table : 0 < (s.nodes i).lengthOfChain →
    ∃ table, s.heap (s.nodes i).last = some table ∧ table.next = 0
  none : (s.nodes i).lengthOfChain = 0 → (s.nodes i).first = 0 ∧ (s.nodes i).last = 0

/-- A file system of which nothing has been read yet. -/
structure Mounted (g : Geometry ι) (s : Fs ι) : Prop where
  disk : DiskOk g s
  cache : ∀ i, (s.nodes i).first = 0 ∧ (s.nodes i).last = 0 ∧ (s.nodes i).lengthOfChain = 0 ∧
    (s.nodes i).chainComplete = false
  next : g.Valid s.nextFreeCluster
  brk : s.brk ≠ 0

/-- A node is truncated to nothing, not at all, or while one table has its whole chain. -/
def TruncateOk (g : Geometry ι) (s : Fs ι) : Event ι → Prop
  | .getcluster _ _ _ => True
  | .extendChain _ _ _ => True
  | .truncateNode i keep =>
      keep = 0 ∨ keep = (diskChain g s i).length ∨ (diskChain g s i).length ≤ clustersPerTable

instance truncateOkDecidable (g : Geometry ι) (s : Fs ι) :
    (e : Event ι) → Decidable (TruncateOk g s e)
  | .getcluster _ _ _ => .isTrue trivial
  | .extendChain _ _ _ => .isTrue trivial
  | .truncateNode _ _ => inferInstanceAs (Decidable (_ ∨ _))

theorem follow_eq {fat : Nat → Nat} {l : List Nat} {fuel start : Nat}
    (hlinked : Linked fat fatEoc l) (hne : ∀ c ∈ l, c ≠ fatFree ∧ c ≠ fatEoc)
    (hfuel : l.length ≤ fuel)
    (hstart : start = l.getD 0 fatFree ∨ start = l.getD 0 fatEoc) : follow fat fuel start = l := by
  induction l generalizing fuel start with
  | nil =>
    cases fuel with
    | zero => rfl
    | succ fuel => exact if_pos hstart
  | cons c l ih =>
    cases fuel with
    | zero => simp at hfuel
    | succ fuel =>
      have hc : start = c := by
        rcases hstart with hstart | hstart <;> exact hstart
      subst hc
      obtain ⟨hfree, heoc⟩ := hne start mem_cons_self
      rw [follow, if_neg (by simp [hfree, heoc])]
      congr 1
      apply ih
      · intro k hk
        exact hlinked (k + 1) (Nat.succ_lt_succ hk)
      · intro c hc
        exact hne c (mem_cons_of_mem _ hc)
      · simpa using hfuel
      · exact .inr (hlinked 0 (Nat.succ_pos _))

theorem FsOk.diskChain_eq (h : FsOk g s ch ad) : diskChain g s = ch := by
  funext i
  apply follow_eq (h.chains.linked i)
  · intro c hc
    exact ⟨(h.chains.valid i c hc).ne_free, (h.chains.valid i c hc).ne_eoc⟩
  · exact h.chains.length_le i
  · exact .inl (h.tables.node i).start

theorem FsOk.of_mounted (h : Mounted g s) : FsOk g s (diskChain g s) (fun _ => []) := by
  refine ⟨h.disk.chains, ?_, h.next, ?_⟩
  · refine ⟨?_, ?_, ?_, h.brk⟩
    · intro i
      obtain ⟨hfirst, hlast, hlength, -⟩ := h.cache i
      refine ⟨h.disk.start i, by omega, hfirst, hlast, ?_, ?_⟩
      · rw [hlength]
        rfl
      · intro k hk
        cases hk
    · intro i j k m hk
      cases hk
    · intro i a ha
      cases ha
  · intro i hcomplete
    rw [(h.cache i).2.2.2] at hcomplete
    cases hcomplete

theorem FsOk.diskOk (h : FsOk g s ch ad) : DiskOk g s := by
  constructor
  · intro i
    rw [h.diskChain_eq]
    exact (h.tables.node i).start
  · rw [h.diskChain_eq]
    exact h.chains

theorem FsOk.cacheOk (h : FsOk g s ch ad) (i : ι) : CacheOk g s i := by
  have hnode := h.tables.node i
  have hle := hnode.length_le
  refine ⟨?_, ?_, ?_, ?_, ?_⟩
  · intro k hk
    obtain ⟨a, table, hwalk, htable, hcl⟩ := hnode.look hk
    rw [h.diskChain_eq, List.getElem?_eq_getElem (by omega), cachedCluster, hwalk]
    simp only [htable, map_some, hcl]
    rw [getD_eq_getElem _ _ (by omega)]
  · rw [h.diskChain_eq]
    exact hle
  · intro hpos
    obtain ⟨k, -, hk, hindex, hlast, -⟩ := h.tables.last_table (i := i) (by omega)
    rw [← hindex, hnode.first, hnode.walkTables _ _ (by omega), Nat.zero_add, hlast]
  · intro hpos
    obtain ⟨-, table, -, -, -, -, htable, hnext, -⟩ := h.tables.last_table (i := i) (by omega)
    exact ⟨table, htable, hnext⟩
  · intro hzero
    obtain ⟨hnil, hlast⟩ := h.tables.tables_nil hzero
    refine ⟨?_, hlast⟩
    rw [hnode.first, hnil]
    rfl

variable [DecidableEq ι]

theorem FsOk.step (h : FsOk g s ch ad) {e : Event ι} (hok : TruncateOk g s e)
    (hs : step g s e = some t) : ∃ ch' ad', FsOk g t ch' ad' := by
  cases e with
  | getcluster i cluster create =>
    rcases fatGetcluster_spec (i := i) h cluster create with
      ⟨-, hnone⟩ | ⟨u, r, ch', ad', hrun, hok', -⟩
    · rw [Fatfs.step, hnone] at hs
      cases hs
    · simp only [Fatfs.step, hrun, map_some, Option.some.injEq] at hs
      exact ⟨ch', ad', hs ▸ hok'⟩
  | extendChain i newLastCluster create =>
    obtain ⟨u, err, ch', ad', hrun, hok', -⟩ :=
      fatExtendChain_spec (i := i) h newLastCluster create
    simp only [Fatfs.step, hrun, map_some, Option.some.injEq] at hs
    exact ⟨ch', ad', hs ▸ hok'⟩
  | truncateNode i keep =>
    unfold TruncateOk at hok
    rw [h.diskChain_eq] at hok
    exact fatTruncateNode_ok h hok hs

/-- In every run the chains on disk stay disjoint, and the tables have what is on disk. -/
theorem cluster_chains_consistent {init : Fs ι} (hinit : Mounted g init)
    (h : Reach (step g) (TruncateOk g) init s) : DiskOk g s ∧ ∀ i, CacheOk g s i := by
  have hinv : ∃ ch ad, FsOk g s ch ad :=
    Reach.invariant (fun s => ∃ ch ad, FsOk g s ch ad) ⟨_, _, .of_mounted hinit⟩
      (fun s e t hinv hok hs => by
        obtain ⟨ch, ad, hinv⟩ := hinv
        exact hinv.step hok hs) h
  obtain ⟨ch, ad, hinv⟩ := hinv
  exact ⟨hinv.diskOk, hinv.cacheOk⟩

/-! A file with some clusters, a root directory with one, and one cluster that is free. -/

def sampleGeometry (n : Nat) (hn : n + 4 < fatEoc) : Geometry Bool :=
  ⟨n + 2, .fat32, 12, false, hn⟩

def sampleChain (n : Nat) : Bool → List Nat
  | true => List.range' 2 n
  | false => [n + 2]

def sampleFs (n : Nat) : Fs Bool where
  fat x := if x = n + 3 then fatFree else if x = n + 1 ∨ x = n + 2 then fatEoc else x + 1
  nextFreeCluster := 2
  heap _ := none
  brk := 1
  nodes i := ⟨if i = true then 2 else n + 2, 0, 0, 0, false, 0⟩

theorem getD_sampleChain {n k : Nat} (d : Nat) (hk : k < n) :
    (sampleChain n true).getD k d = 2 + k := by
  rw [sampleChain, getD_eq_getElem _ _ (by simpa using hk), getElem_range', Nat.one_mul]

theorem mem_sampleChain {n x : Nat} {i : Bool} :
    x ∈ sampleChain n i ↔ if i = true then 2 ≤ x ∧ x < 2 + n else x = n + 2 := by
  cases i with
  | true => simp [sampleChain, mem_range'_1]
  | false => simp [sampleChain]

theorem chainsOk_sample {n : Nat} (hn : n + 4 < fatEoc) :
    ChainsOk (sampleGeometry n hn) (sampleFs n).fat (sampleChain n) := by
  have hlength : (sampleChain n true).length = n := length_range'
  refine ⟨?_, ?_, ?_, ?_⟩
  · intro i k hk
    cases i with
    | true =>
      rw [hlength] at hk
      rw [getD_sampleChain _ hk]
      by_cases hend : k + 1 = n
      · rw [getD_eq_default _ _ (by omega)]
        show (if 2 + k = n + 3 then fatFree
          else if 2 + k = n + 1 ∨ 2 + k = n + 2 then fatEoc else 2 + k + 1) = fatEoc
        rw [if_neg (by omega), if_pos (by omega)]
      · rw [getD_sampleChain _ (by omega)]
        show (if 2 + k = n + 3 then fatFree
          else if 2 + k = n + 1 ∨ 2 + k = n + 2 then fatEoc else 2 + k + 1) = 2 + (k + 1)
        rw [if_neg (by omega), if_neg (by omega), Nat.add_assoc]
    | false =>
      have hzero : k = 0 := Nat.lt_one_iff.mp hk
      subst hzero
      simp [sampleChain, sampleFs]
  · intro i j k m hk hm heq
    cases i <;> cases j
    · exact ⟨rfl, (Nat.lt_one_iff.mp hk).trans (Nat.lt_one_iff.mp hm).symm⟩
    · have hmem := getD_mem (d := fatFree) hm
      rw [← heq, Nat.lt_one_iff.mp hk, mem_sampleChain] at hmem
      replace hmem : 2 ≤ n + 2 ∧ n + 2 < 2 + n := hmem
      omega
    · have hmem := getD_mem (d := fatFree) hk
      rw [heq, Nat.lt_one_iff.mp hm, mem_sampleChain] at hmem
      replace hmem : 2 ≤ n + 2 ∧ n + 2 < 2 + n := hmem
      omega
    · rw [hlength] at hk hm
      rw [getD_sampleChain _ hk, getD_sampleChain _ hm] at heq
      exact ⟨rfl, by omega⟩
  · intro i c hc
    rw [mem_sampleChain] at hc
    unfold Geometry.Valid sampleGeometry
    cases i with
    | true =>
      simp only [if_true] at hc ⊢
      omega
    | false =>
      simp only [Bool.false_eq_true, if_false] at hc ⊢
      omega
  · intro c hc
    unfold Geometry.Valid sampleGeometry at hc
    replace hc : 2 ≤ c ∧ c < n + 2 + 2 := hc
    simp only [Bool.forall_bool, mem_sampleChain, Bool.false_eq_true, if_false, if_true]
    show (if c = n + 3 then fatFree else if c = n + 1 ∨ c = n + 2 then fatEoc else c + 1) = 0 ↔ _
    by_cases hspare : c = n + 3
    · rw [if_pos hspare]
      exact iff_of_true rfl (by omega)
    · rw [if_neg hspare]
      refine iff_of_false ?_ (by omega)
      split
      · decide
      · exact Nat.succ_ne_zero c

theorem mounted_sample {n : Nat} (hpos : 0 < n) (hn : n + 4 < fatEoc) :
    Mounted (sampleGeometry n hn) (sampleFs n) ∧
      diskChain (sampleGeometry n hn) (sampleFs n) = sampleChain n := by
  have hchains := chainsOk_sample hn
  have hstart : ∀ i, ((sampleFs n).nodes i).startCluster = (sampleChain n i).getD 0 fatFree := by
    intro i
    cases i with
    | true => exact (getD_sampleChain _ hpos).symm
    | false => rfl
  have hdisk : diskChain (sampleGeometry n hn) (sampleFs n) = sampleChain n := by
    funext i
    apply follow_eq (hchains.linked i)
    · intro c hc
      exact ⟨(hchains.valid i c hc).ne_free, (hchains.valid i c hc).ne_eoc⟩
    · exact hchains.length_le i
    · exact .inl (hstart i)
  refine ⟨⟨⟨?_, ?_⟩, ?_, ?_, ?_⟩, hdisk⟩
  · rw [hdisk]
    exact hstart
  · rw [hdisk]
    exact hchains
  · intro i
    exact ⟨rfl, rfl, rfl, rfl⟩
  · exact ⟨Nat.le_refl 2, show 2 < n + 2 + 2 by omega⟩
  · exact Nat.one_ne_zero

theorem cluster_chains_consistent_sample :
    ∃ s, Reach (step (sampleGeometry 1 (by decide))) (TruncateOk (sampleGeometry 1 (by decide)))
        (sampleFs 1) s ∧
      (s.nodes true).lengthOfChain = 1 ∧ DiskOk (sampleGeometry 1 (by decide)) s := by
  have hrun : (runLabels (step (sampleGeometry 1 (by decide))) (sampleFs 1)
      [.getcluster true 1 true, .truncateNode true 1]).map
        (fun s => decide ((s.nodes true).lengthOfChain = 1)) = some true := by decide
  obtain ⟨s, hs, hlength⟩ := map_eq_some_iff.mp hrun
  have hreach : Reach (step (sampleGeometry 1 (by decide)))
      (TruncateOk (sampleGeometry 1 (by decide))) (sampleFs 1) s :=
    .labels _ .start (by decide) hs
  exact ⟨s, hreach, of_decide_eq_true hlength,
    (cluster_chains_consistent (mounted_sample Nat.one_pos (by decide)).1 hreach).1⟩

/-- A file of 1025 clusters is cut off after the first one. Its last table is the second one, which is
freed. -/
theorem last_table_freed :
    ∃ s t, Mounted (sampleGeometry 1025 (by decide)) s ∧
      Reach (step (sampleGeometry 1025 (by decide))) (fun _ _ => True) s t ∧
      ¬ CacheOk (sampleGeometry 1025 (by decide)) t true := by
  obtain ⟨hmounted, hdisk⟩ := mounted_sample (n := 1025) (by decide) (by decide)
  have hok := FsOk.of_mounted hmounted
  rw [hdisk] at hok
  obtain ⟨t, hrun, hlength, hlast⟩ := fatTruncateNode_dangling (i := true) hok (by decide)
    Nat.one_pos (by decide) (by rw [sampleChain, length_range']; decide)
  refine ⟨sampleFs 1025, t, hmounted, .step (.truncateNode true 1) .start trivial hrun, ?_⟩
  intro hcache
  obtain ⟨table, htable, -⟩ := hcache.last_table (by omega)
  rw [hlast] at htable
  cases htable

end Runs

end Hurd.Fatfs
