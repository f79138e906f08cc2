import Hurd.Libstore.Rdwr
import Mathlib.Algebra.Order.BigOperators.Group.List
import Mathlib.Tactic.Linarith

/-!
# Reading run after run

What the loop of `store_read` returns from a store whose runs are no holes, when the method of the
class returns the blocks it is asked for.
-/

namespace Hurd.Libstore

open List

/-- Blocks of the storage, by the index of the run they are asked for and their addresses. -/
def placesFrom (index : Nat) (addr : Int) (n : Nat) : List (Nat × Int) :=
  (List.range n).map fun i : Nat => (index, addr + i)

/-- The blocks that a run list stands for, in their order. -/
def runPlaces (base : Int) : List StoreRun → Nat → List (Nat × Int)
  | [], _ => []
  | run :: runs, index =>
      placesFrom index (base + run.start) run.length.toNat ++ runPlaces base runs (index + 1)

structure Storage (blockSize : Nat) where
  block : Nat → Int → List UInt8
  length_block : ∀ index addr, (block index addr).length = blockSize

def Storage.bytes {blockSize : Nat} (content : Storage blockSize) (places : List (Nat × Int)) :
    List UInt8 :=
  places.flatMap fun place => content.block place.1 place.2

@[simp]
theorem length_placesFrom (index : Nat) (addr : Int) (n : Nat) :
    (placesFrom index addr n).length = n := by
  simp [placesFrom]

theorem placesFrom_add (index : Nat) (addr : Int) (n m : Nat) :
    placesFrom index addr (n + m) = placesFrom index addr n ++ placesFrom index (addr + n) m := by
  simp only [placesFrom, range_add, map_append, map_map]
  congr 1
  apply map_congr_left
  intro i _
  simp [Int.add_assoc]

theorem take_placesFrom {index : Nat} {addr : Int} {n m : Nat} (h : m ≤ n) :
    (placesFrom index addr n).take m = placesFrom index addr m := by
  rw [show n = m + (n - m) by omega, placesFrom_add]
  exact take_left' (length_placesFrom ..)

theorem drop_placesFrom {index : Nat} {addr : Int} {n m : Nat} (h : m ≤ n) :
    (placesFrom index addr n).drop m = placesFrom index (addr + m) (n - m) := by
  rw [show n = m + (n - m) by omega, placesFrom_add, drop_left' (length_placesFrom ..)]
  congr 1
  omega

theorem length_runPlaces (base : Int) (runs : List StoreRun) (index : Nat)
    (h : ∀ run ∈ runs, 0 ≤ run.length) :
    ((runPlaces base runs index).length : Int) = (runs.map (·.length)).sum := by
  induction runs generalizing index with
  | nil => rfl
  | cons run runs ih =>
    obtain ⟨hrun, hruns⟩ := forall_mem_cons.mp h
    simp only [runPlaces, length_append, length_placesFrom, map_cons, sum_cons]
    have := ih (index + 1) hruns
    omega

section Bytes

variable {blockSize : Nat} (content : Storage blockSize)

@[simp]
theorem Storage.bytes_append (places places' : List (Nat × Int)) :
    content.bytes (places ++ places') = content.bytes places ++ content.bytes places' :=
  flatMap_append

@[simp]
theorem Storage.length_bytes (places : List (Nat × Int)) :
    (content.bytes places).length = places.length * blockSize := by
  induction places with
  | nil => simp [Storage.bytes]
  | cons place places ih =>
    rw [Storage.bytes, flatMap_cons, length_append, content.length_block,
      length_cons, Nat.succ_mul, Nat.add_comm]
    exact congrArg (· + blockSize) ih

end Bytes

/-- A store whose runs are no holes and do not repeat, of a size in bytes that an `off_t` holds. -/
structure PlainStore where
  info : StoreInfo
  runs_nonneg : ∀ run ∈ info.runs, 0 ≤ run.start ∧ 0 ≤ run.length
  wrapSrc_eq : info.wrapSrc = (info.runs.map (·.length)).sum
  unwrapped : info.endBlock ≤ info.wrapSrc
  blockSize_eq : info.blockSize = 2 ^ info.log2BlockSize
  fits : info.wrapSrc * info.blockSize < 2 ^ 63

/-- The blocks of the store in the order of their numbers. -/
def PlainStore.places (s : PlainStore) : List (Nat × Int) := runPlaces 0 s.info.runs 0

/-- The method returns the blocks of the runs that it is asked for, in the rounds that begin at
`base`. -/
def ServesRuns (s : StoreInfo) (content : Storage s.blockSize)
    (method : Method (List UInt8) List.length) (base : Int) : Prop :=
  ∀ calls c (run : StoreRun) (n : Nat), s.runs[c.index]? = some run →
    base + run.start ≤ c.addr → c.addr + n ≤ base + run.start + run.length →
    c.amount = n * s.blockSize →
    method.run calls c = .ok (content.bytes (placesFrom c.index c.addr n))

/-- A method that returns whatever block it is asked for. -/
def readsAll {blockSize : Nat} (content : Storage blockSize) :
    Method (List UInt8) List.length where
  run := fun _ c => .ok (content.bytes (placesFrom c.index c.addr (c.amount / blockSize)))
  le := by
    intro calls c answer h
    cases h
    rw [Storage.length_bytes, length_placesFrom]
    exact Nat.div_mul_le_self _ _

theorem PlainStore.blockSize_pos (s : PlainStore) : 0 < s.info.blockSize := by
  rw [s.blockSize_eq]
  exact Nat.two_pow_pos _

theorem servesRuns_readsAll (s : PlainStore) (content : Storage s.info.blockSize) (base : Int) :
    ServesRuns s.info content (readsAll content) base := by
  intro calls c run n _ _ _ hamount
  simp only [readsAll, hamount, Nat.mul_div_cancel _ s.blockSize_pos]

/-- The bytes that have been read. -/
def Transfer.data (t : Transfer (List UInt8)) : List UInt8 := t.answers.flatten

theorem Transfer.amount_eq (t : Transfer (List UInt8)) : t.amount List.length = t.data.length := by
  rw [amount, data, length_flatten]

def Transfer.Adds (t t' : Transfer (List UInt8)) (bytes : List UInt8) : Prop :=
  t'.ending = .success ∧ t'.data = t.data ++ bytes

theorem Transfer.Adds.trans {t t' t'' : Transfer (List UInt8)} {bytes bytes' : List UInt8}
    (h : t.Adds t' bytes) (h' : t'.Adds t'' bytes') : t.Adds t'' (bytes ++ bytes') :=
  ⟨h'.1, by rw [h'.2, h.2, append_assoc]⟩

section Serves

variable {s : PlainStore} {content : Storage s.info.blockSize}
  {method : Method (List UInt8) List.length} {p : RunPosition}

theorem call_adds (hserves : ServesRuns s.info content method p.base)
    (hrun : s.info.runs[p.index]? = some p.run) (hoffset : 0 ≤ p.offset) {n : Nat}
    (hn : p.offset + n ≤ p.run.length) (t : Transfer (List UInt8)) :
    t.Adds (method.call p (n * s.info.blockSize) t)
      (content.bytes (placesFrom p.index p.addr n)) := by
  have hanswer := hserves t.calls ⟨p.addr, p.index, t.amount List.length, n * s.info.blockSize⟩
    p.run n hrun (by simp only [RunPosition.addr]; omega) (by simp only [RunPosition.addr]; omega)
    rfl
  rw [Method.call]
  simp only [hanswer]
  exact ⟨rfl, by simp [Transfer.data]⟩

theorem Transfer.Adds.full {t t' : Transfer (List UInt8)} {places : List (Nat × Int)}
    (h : t.Adds t' (content.bytes places)) :
    t'.Full List.length (t.amount List.length + places.length * s.info.blockSize) := by
  refine ⟨h.1, ?_⟩
  rw [amount_eq, amount_eq, h.2, length_append, Storage.length_bytes]

theorem PlainStore.length_mul_lt (s : PlainStore) {run : StoreRun} (h : run ∈ s.info.runs) :
    run.length * s.info.blockSize < 2 ^ 63 := by
  have hle : run.length ≤ s.info.wrapSrc := by
    rw [s.wrapSrc_eq]
    apply single_le_sum
    · intro x hx
      obtain ⟨run, hrun, rfl⟩ := mem_map.mp hx
      exact (s.runs_nonneg run hrun).2
    · exact mem_map_of_mem h
  exact lt_of_le_of_lt (Int.mul_le_mul_of_nonneg_right hle (Int.natCast_nonneg _)) s.fits

theorem PlainStore.toSizeT_mul (s : PlainStore) {blocks : Int} (h : 0 ≤ blocks)
    (hlt : blocks * s.info.blockSize < 2 ^ 64) :
    toSizeT (blocks * 2 ^ s.info.log2BlockSize) = blocks.toNat * s.info.blockSize := by
  have hcast : blocks * 2 ^ s.info.log2BlockSize =
      ((blocks.toNat * s.info.blockSize : Nat) : Int) := by
    rw [Int.natCast_mul, Int.toNat_of_nonneg h, s.blockSize_eq]
    push_cast
    rfl
  have hnat : ((blocks.toNat * s.info.blockSize : Nat) : Int) < 2 ^ 64 := by
    rw [Int.natCast_mul, Int.toNat_of_nonneg h]
    exact hlt
  rw [hcast, toSizeT, Int.emod_eq_of_lt (Int.natCast_nonneg _) hnat]
  exact Int.toNat_natCast _

theorem PlainStore.toSizeT_blocks (s : PlainStore) {blocks : Int} (h : 0 ≤ blocks)
    (hlt : blocks * s.info.blockSize < 2 ^ 64) : toSizeT blocks = blocks.toNat := by
  have hpos : (1 : Int) ≤ s.info.blockSize := by
    have := s.blockSize_pos
    omega
  have hle : blocks ≤ blocks * s.info.blockSize := le_mul_of_one_le_right h hpos
  rw [toSizeT, Int.emod_eq_of_lt h (by omega)]

theorem runAmount_eq {run : StoreRun} (hmem : run ∈ s.info.runs) (left : Nat) :
    runAmount s.info run (left * s.info.blockSize) =
      min left run.length.toNat * s.info.blockSize := by
  have hlen := (s.runs_nonneg run hmem).2
  have hlt := s.length_mul_lt hmem
  have hdiv : left * s.info.blockSize / 2 ^ s.info.log2BlockSize = left := by
    rw [← s.blockSize_eq, Nat.mul_div_cancel _ s.blockSize_pos]
  rw [runAmount, hdiv, s.toSizeT_blocks hlen (by omega), s.toSizeT_mul hlen (by omega)]
  split
  next hle => rw [Nat.min_eq_left hle]
  next hle => rw [Nat.min_eq_right (Nat.le_of_not_le hle)]

theorem nextRuns_step {q : RunPosition} {left : Nat}
    (hserves : ServesRuns s.info content method q.base) (hleft : left ≠ 0)
    (hnext : storeNextRun s.info p = some q) (fuel : Nat) (t : Transfer (List UInt8)) :
    ∃ t', t.Adds t' (content.bytes
        (placesFrom q.index (q.base + q.run.start) (min left q.run.length.toNat))) ∧
      nextRuns s.info method (fuel + 1) p (left * s.info.blockSize) t =
        nextRuns s.info method fuel q ((left - q.run.length.toNat) * s.info.blockSize) t' := by
  have hrun := storeNextRun_index hnext
  have hmem := mem_of_getElem? hrun
  have hnonneg := s.runs_nonneg q.run hmem
  have hoffset : q.offset = 0 := by
    rw [storeNextRun] at hnext
    split at hnext
    · cases hnext
      rfl
    · split at hnext
      · obtain ⟨run, _, rfl⟩ := Option.map_eq_some_iff.mp hnext
        rfl
      · cases hnext
  have hadds := call_adds (n := min left q.run.length.toNat) hserves hrun (by omega) (by omega) t
  have hfull := hadds.full
  rw [length_placesFrom] at hfull
  refine ⟨method.call q (min left q.run.length.toNat * s.info.blockSize) t, ?_, ?_⟩
  · convert hadds using 3
    rw [RunPosition.addr, hoffset, Int.add_zero]
  · have hne : left * s.info.blockSize ≠ 0 := Nat.mul_ne_zero hleft s.blockSize_pos.ne'
    rw [nextRuns, if_neg hne, hnext]
    simp only
    rw [if_neg (by omega), runAmount_eq hmem, if_pos hfull, ← Nat.sub_mul]
    congr 2
    omega

/-- The runs that are still to come in the round of a position. -/
def PlainStore.ahead (s : PlainStore) (p : RunPosition) : List (Nat × Int) :=
  runPlaces p.base (s.info.runs.drop (p.index + 1)) (p.index + 1)

theorem storeNextRun_drop {run : StoreRun} {runs : List StoreRun}
    (h : s.info.runs.drop (p.index + 1) = run :: runs) :
    storeNextRun s.info p = some { p with index := p.index + 1, run := run, offset := 0 } ∧
      s.info.runs.drop (p.index + 1 + 1) = runs := by
  have hget : s.info.runs[p.index + 1]? = some run := by
    rw [← Nat.add_zero (p.index + 1), ← List.getElem?_drop, h]
    rfl
  constructor
  · rw [storeNextRun, hget]
  · rw [← drop_drop, h]
    rfl

theorem nextRuns_within {left fuel : Nat} (hfuel : s.info.runs.length ≤ p.index + fuel)
    {t : Transfer (List UInt8)} (hserves : ServesRuns s.info content method p.base)
    (ht : t.ending = .success) (hleft : left ≤ (s.ahead p).length) :
    t.Adds (nextRuns s.info method (fuel + 1) p (left * s.info.blockSize) t)
      (content.bytes ((s.ahead p).take left)) := by
  generalize hruns : s.info.runs.drop (p.index + 1) = runs
  induction runs generalizing p left fuel t with
  | nil =>
    rw [PlainStore.ahead, hruns] at hleft
    rw [Nat.le_zero.mp hleft, Nat.zero_mul, nextRuns, if_pos rfl]
    exact ⟨ht, by simp [Storage.bytes]⟩
  | cons run runs ih =>
    obtain ⟨hnext, hrest⟩ := storeNextRun_drop hruns
    by_cases hzero : left = 0
    · rw [hzero, Nat.zero_mul, nextRuns, if_pos rfl]
      exact ⟨ht, by simp [Storage.bytes]⟩
    obtain ⟨fuel, rfl⟩ : ∃ k, fuel = k + 1 := by
      have hlen := congrArg List.length hruns
      rw [length_drop, length_cons] at hlen
      exact ⟨fuel - 1, by omega⟩
    obtain ⟨t', hadds, heq⟩ := nextRuns_step
      (q := { p with index := p.index + 1, run := run, offset := 0 }) hserves hzero hnext
      (fuel + 1) t
    have hahead : s.ahead p = placesFrom (p.index + 1) (p.base + run.start) run.length.toNat ++
        runPlaces p.base runs (p.index + 1 + 1) := by
      rw [PlainStore.ahead, hruns]
      rfl
    rw [hahead, length_append, length_placesFrom] at hleft
    have hrestLeft : left - run.length.toNat ≤
        (s.ahead { p with index := p.index + 1, run := run, offset := 0 }).length := by
      rw [PlainStore.ahead, hrest]
      exact Nat.sub_le_iff_le_add'.mpr hleft
    have hfuel' : s.info.runs.length ≤ p.index + 1 + fuel := by omega
    have hmore := ih (p := { p with index := p.index + 1, run := run, offset := 0 }) hfuel'
      hserves hadds.1 hrestLeft hrest
    have htaken : t.Adds t' (content.bytes
        ((placesFrom (p.index + 1) (p.base + run.start) run.length.toNat).take left)) := by
      convert hadds using 2
      rcases Nat.le_total left run.length.toNat with hle | hle
      · rw [take_placesFrom hle, Nat.min_eq_left hle]
      · rw [Nat.min_eq_right hle, take_of_length_le (by rw [length_placesFrom]; exact hle)]
    rw [heq, hahead, take_append, length_placesFrom, content.bytes_append]
    apply htaken.trans
    convert hmore using 3
    rw [PlainStore.ahead, hrest]

theorem nextRuns_round (fuel : Nat) {left : Nat} {t : Transfer (List UInt8)}
    (hserves : ServesRuns s.info content method p.base) (ht : t.ending = .success)
    (hleft : (s.ahead p).length < left) :
    ∃ q t', q.base = p.base ∧ s.info.runs.drop (q.index + 1) = [] ∧
      t.Adds t' (content.bytes (s.ahead p)) ∧
      nextRuns s.info method (fuel + (s.info.runs.drop (p.index + 1)).length) p
          (left * s.info.blockSize) t =
        nextRuns s.info method fuel q ((left - (s.ahead p).length) * s.info.blockSize) t' := by
  generalize hruns : s.info.runs.drop (p.index + 1) = runs
  induction runs generalizing p left t with
  | nil =>
    refine ⟨p, t, rfl, hruns, ⟨ht, ?_⟩, ?_⟩
    · simp [PlainStore.ahead, hruns, runPlaces, Storage.bytes]
    · simp [PlainStore.ahead, hruns, runPlaces]
  | cons run runs ih =>
    obtain ⟨hnext, hrest⟩ := storeNextRun_drop hruns
    have hahead : s.ahead p = placesFrom (p.index + 1) (p.base + run.start) run.length.toNat ++
        s.ahead { p with index := p.index + 1, run := run, offset := 0 } := by
      rw [PlainStore.ahead, PlainStore.ahead, hruns, hrest]
      rfl
    rw [hahead, length_append, length_placesFrom] at hleft
    obtain ⟨t', hadds, heq⟩ := nextRuns_step
      (q := { p with index := p.index + 1, run := run, offset := 0 }) hserves
      (Nat.ne_zero_of_lt hleft) hnext (fuel + runs.length) t
    obtain ⟨q, t'', hbase, hlast, hmore, heq'⟩ :=
      ih (p := { p with index := p.index + 1, run := run, offset := 0 }) hserves hadds.1
        (Nat.lt_sub_iff_add_lt'.mpr hleft) hrest
    refine ⟨q, t'', hbase, hlast, ?_, ?_⟩
    · rw [hahead, content.bytes_append]
      refine Transfer.Adds.trans ?_ hmore
      convert hadds using 3
      exact (Nat.min_eq_right (by omega)).symm
    · rw [length_cons, ← Nat.add_assoc, heq, heq', hahead, length_append,
        length_placesFrom, Nat.sub_sub]

theorem storeNextRun_last (hlast : s.info.runs.drop (p.index + 1) = []) :
    storeNextRun s.info p =
      if p.base + s.info.wrapDst < s.info.endBlock then
        s.info.runs.head?.map fun run => ⟨0, p.base + s.info.wrapDst, run, 0⟩
      else none := by
  have hget : s.info.runs[p.index + 1]? = none :=
    List.getElem?_eq_none (drop_eq_nil_iff.mp hlast)
  rw [storeNextRun, hget]

theorem nextRuns_stop (hlast : s.info.runs.drop (p.index + 1) = [])
    (hstop : s.info.endBlock ≤ p.base + s.info.wrapDst) (left fuel : Nat)
    (t : Transfer (List UInt8)) : nextRuns s.info method (fuel + 1) p left t = t := by
  rw [nextRuns, storeNextRun_last hlast, if_neg (Int.not_lt.mpr hstop)]
  simp

end Serves

section Rounds

variable {β : Type} {size : β → Nat} {s : StoreInfo} {method : Method β size}

theorem nextRuns_mono {fuel : Nat} {p : RunPosition} {left : Nat} {t : Transfer β}
    (h : (nextRuns s method fuel p left t).ending ≠ .unfinished) (more : Nat) :
    nextRuns s method (fuel + more) p left t = nextRuns s method fuel p left t := by
  induction fuel generalizing p left t with
  | zero => exact absurd rfl h
  | succ fuel ih =>
    rw [Nat.succ_add]
    rw [nextRuns] at h ⊢
    rw [nextRuns]
    split
    · rfl
    next hleft =>
    rw [if_neg hleft] at h
    cases hq : storeNextRun s p with
    | none => rfl
    | some q =>
      simp only [hq] at h ⊢
      split
      · rfl
      next hstart =>
      rw [if_neg hstart] at h
      split
      next hfull =>
        rw [if_pos hfull] at h
        exact ih h
      next => rfl

theorem answers_prefix_nextRuns (fuel : Nat) (p : RunPosition) (left : Nat) (t : Transfer β) :
    t.answers <+: (nextRuns s method fuel p left t).answers := by
  induction fuel generalizing p left t with
  | zero => exact prefix_refl _
  | succ fuel ih =>
    rw [nextRuns]
    split
    · exact prefix_refl _
    split
    · exact prefix_refl _
    split
    · exact prefix_refl _
    next q _ _ =>
      have hcall : t.answers <+: (method.call q (runAmount s q.run left) t).answers := by
        rw [Method.call]
        split
        · exact prefix_refl _
        · exact prefix_append _ _
      simp only
      split
      · exact hcall.trans (ih _ _ _)
      · exact hcall

end Rounds

theorem length_data_le_nextRuns {s : StoreInfo} {method : Method (List UInt8) List.length}
    (fuel : Nat) (p : RunPosition) (left : Nat) (t : Transfer (List UInt8)) :
    t.data.length ≤ (nextRuns s method fuel p left t).data.length := by
  obtain ⟨answers, h⟩ : t.answers <+: (nextRuns s method fuel p left t).answers :=
    answers_prefix_nextRuns fuel p left t
  rw [Transfer.data, Transfer.data, ← h, flatten_append, length_append]
  exact Nat.le_add_right _ _

theorem nextRuns_wraps {s : PlainStore} {content : Storage s.info.blockSize} {p : RunPosition}
    {left fuel : Nat} {t : Transfer (List UInt8)}
    (hlast : s.info.runs.drop (p.index + 1) = [])
    (hwraps : p.base + s.info.wrapDst < s.info.endBlock) (hpos : 0 < s.info.wrapSrc)
    (hleft : left ≠ 0)
    (hend : (nextRuns s.info (readsAll content) fuel p (left * s.info.blockSize) t).ending ≠
      .unfinished) :
    t.data.length <
      (nextRuns s.info (readsAll content) fuel p (left * s.info.blockSize) t).data.length := by
  have hbs := s.blockSize_pos
  cases hruns : s.info.runs with
  | nil =>
    rw [s.wrapSrc_eq, hruns] at hpos
    exact absurd hpos (lt_irrefl 0)
  | cons run runs =>
  let q : RunPosition := ⟨0, p.base + s.info.wrapDst, run, 0⟩
  have hnext : storeNextRun s.info p = some q := by
    rw [storeNextRun_last hlast, if_pos hwraps, hruns]
    rfl
  have hserves := servesRuns_readsAll s content q.base
  have hmono := nextRuns_mono hend (s.info.runs.length + runs.length + 2)
  rw [← hmono]
  obtain ⟨t', hadds, heq⟩ := nextRuns_step hserves hleft hnext
    (fuel + 1 + s.info.runs.length + runs.length) t
  have hahead : run.length + (s.ahead q).length = s.info.wrapSrc := by
    have hnonneg := fun run hrun => (s.runs_nonneg run hrun).2
    rw [hruns] at hnonneg
    rw [PlainStore.ahead, s.wrapSrc_eq, hruns, map_cons, sum_cons,
      show (run :: runs).drop (q.index + 1) = runs from rfl,
      length_runPlaces _ _ _ (forall_mem_cons.mp hnonneg).2]
  have hlen := (s.runs_nonneg run (hruns ▸ mem_cons_self)).2
  have ht' : t'.data.length = t.data.length + min left run.length.toNat * s.info.blockSize := by
    rw [hadds.2, length_append, Storage.length_bytes, length_placesFrom]
  rw [show fuel + (s.info.runs.length + runs.length + 2) =
    fuel + 1 + s.info.runs.length + runs.length + 1 by omega, heq]
  change t.data.length < (nextRuns s.info (readsAll content) _ q
    ((left - run.length.toNat) * s.info.blockSize) t').data.length
  by_cases hwithin : left - run.length.toNat ≤ (s.ahead q).length
  · -- the request ends in this round
    have hfuel : s.info.runs.length ≤ q.index + (fuel + s.info.runs.length + runs.length) := by
      omega
    have hmore := nextRuns_within hfuel hserves hadds.1 hwithin
    rw [show fuel + 1 + s.info.runs.length + runs.length =
      fuel + s.info.runs.length + runs.length + 1 by omega, hmore.2, length_append,
      Storage.length_bytes, length_take, Nat.min_eq_left hwithin, ht', Nat.add_assoc,
      ← Nat.add_mul]
    have : 0 < (min left run.length.toNat + (left - run.length.toNat)) * s.info.blockSize :=
      Nat.mul_pos (by omega) hbs
    omega
  · -- the whole round is read
    obtain ⟨q', t'', _, _, hmore, heq'⟩ := nextRuns_round (fuel + 1 + s.info.runs.length)
      hserves hadds.1 (Nat.not_le.mp hwithin)
    rw [show (s.info.runs.drop (q.index + 1)).length = runs.length by rw [hruns]; rfl] at heq'
    rw [heq']
    apply lt_of_lt_of_le ?_ (length_data_le_nextRuns _ q' _ t'')
    rw [hmore.2, length_append, Storage.length_bytes, ht', Nat.add_assoc, ← Nat.add_mul]
    have : 0 < (min left run.length.toNat + (s.ahead q).length) * s.info.blockSize :=
      Nat.mul_pos (by omega) hbs
    omega

end Hurd.Libstore
