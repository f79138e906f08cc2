import Hurd.Libstore.Store
import Mathlib.Algebra.BigOperators.Group.List.Basic
import Mathlib.Tactic.Linarith
import Mathlib.Tactic.Ring

/-!
# Interleaved stores

Which store `store_ileave_create` makes of stripes of one block size: how large it is, and where
its blocks are.
-/

namespace Hurd.Libstore

open List

variable {stripes : List Store} {blockSize : Nat} {interleave : Int}

theorem lcm_self (h : 0 < blockSize) : lcm blockSize blockSize = .ok blockSize := by
  rw [lcm, Nat.gcd_self, if_neg h.ne', Nat.div_self h, Nat.one_mul]

theorem lcm_one (n : Nat) : lcm 1 n = .ok n := by
  rw [lcm, Nat.gcd_one_left, if_neg one_ne_zero, Nat.div_one, Nat.one_mul]

theorem commonBlockSize_eq (hne : stripes ≠ []) (hpos : 0 < blockSize)
    (hsize : ∀ stripe ∈ stripes, stripe.info.blockSize = blockSize) :
    commonBlockSize stripes = .ok blockSize := by
  have hrest : ∀ kids : List Store, (∀ kid ∈ kids, kid.info.blockSize = blockSize) →
      kids.foldlM (fun size store => lcm size store.info.blockSize) blockSize = .ok blockSize := by
    intro kids hkids
    induction kids with
    | nil => rfl
    | cons kid kids ih =>
      obtain ⟨hkid, hkids⟩ := forall_mem_cons.mp hkids
      rw [foldlM_cons, hkid, lcm_self hpos]
      exact ih hkids
  obtain ⟨stripe, rest, rfl⟩ := exists_cons_of_ne_nil hne
  obtain ⟨hstripe, hall⟩ := forall_mem_cons.mp hsize
  rw [commonBlockSize, foldlM_cons, lcm_one, hstripe]
  exact hrest rest hall

theorem commonBlockSize_zero (hne : stripes ≠ [])
    (hsize : ∀ stripe ∈ stripes, stripe.info.blockSize = 0) {size : Nat}
    (h : commonBlockSize stripes = .ok size) : size = 0 := by
  obtain ⟨stripe, rest, rfl⟩ := exists_cons_of_ne_nil hne
  obtain ⟨hstripe, hall⟩ := forall_mem_cons.mp hsize
  rw [commonBlockSize, foldlM_cons, lcm_one, hstripe] at h
  cases rest with
  | nil => exact (Except.ok.inj h).symm
  | cons next rest =>
    have hzero : lcm 0 next.info.blockSize = .error .abort := by
      rw [(forall_mem_cons.mp hall).1, lcm, if_pos (Nat.gcd_self 0)]
    have hstop : (next :: rest).foldlM (fun size store => lcm size store.info.blockSize) 0 =
        .error .abort := by
      rw [foldlM_cons, hzero]
      rfl
    cases hstop.symm.trans h

theorem minEnd_eq_zero {ends : List Int} (h : ∀ e ∈ ends, 0 ≤ e) : minEnd ends = 0 := by
  rw [minEnd]
  induction ends with
  | nil => rfl
  | cons e ends ih =>
    obtain ⟨he, hends⟩ := forall_mem_cons.mp h
    rw [foldl_cons, if_neg (lt_irrefl 0), if_neg he.not_gt]
    exact ih hends

theorem toSizeT_of_nonneg {n : Int} (h : 0 ≤ n) (hlt : n < 2 ^ 64) : (toSizeT n : Int) = n := by
  rw [toSizeT]
  omega

theorem ofSizeT_of_lt {n : Nat} (h : n < 2 ^ 63) : ofSizeT n = n := by
  apply Int.bmod_eq_of_le_mul_two
  · push_cast
    omega
  · push_cast
    omega

/-- `n` runs of one length, from the start of each stripe. -/
def stripeRuns (n : Nat) (interleave : Int) : List StoreRun := List.replicate n ⟨0, interleave⟩

theorem sum_stripeRuns (n : Nat) (interleave : Int) :
    ((stripeRuns n interleave).map (·.length)).sum = n * interleave := by
  simp [stripeRuns]

/-- What is known of a store that `store_ileave_create` has made. -/
structure Interleaved (stripes : List Store) (blockSize : Nat) (interleave : Int) (s : Store) :
    Prop where
  runs : s.info.runs = stripeRuns stripes.length interleave
  endBlock : s.info.endBlock = stripes.length * interleave
  wrapSrc : s.info.wrapSrc = stripes.length * interleave
  wrapDst : s.info.wrapDst = interleave
  blockSize : s.info.blockSize = blockSize
  children : s.children = stripes

theorem storeCreate_derived {cls : StoreClass} {port : Nat} {flags : BitVec 32}
    {runs : List StoreRun} {info : StoreInfo} (hpos : 0 < blockSize)
    (h : storeCreate cls port flags blockSize runs 0 = .ok info) :
    info.runs = runs ∧ info.endBlock = (runs.map (·.length)).sum ∧
      info.wrapSrc = (runs.map (·.length)).sum ∧ info.blockSize = blockSize := by
  rw [storeCreate] at h
  split at h
  · cases h
  split at h
  · cases h
  simp only [storeDerive] at h
  split at h
  · cases h
  · cases h
    exact ⟨rfl, rfl, rfl, rfl⟩

theorem blockSize_pos_of_create {flags : BitVec 32} {s : Store} (hne : stripes ≠ [])
    (hsize : ∀ stripe ∈ stripes, stripe.info.blockSize = blockSize)
    (hs : storeIleaveCreate stripes interleave flags = .ok s) : 0 < blockSize := by
  apply Nat.pos_of_ne_zero
  rintro rfl
  rw [storeIleaveCreate] at hs
  cases hcommon : commonBlockSize stripes with
  | error e =>
    rw [hcommon] at hs
    cases hs
  | ok size =>
    rw [hcommon, commonBlockSize_zero hne hsize hcommon] at hs
    cases hs

theorem interleaved_of_create {flags : BitVec 32} {s : Store} (hne : stripes ≠ [])
    (hsize : ∀ stripe ∈ stripes, stripe.info.blockSize = blockSize)
    (hends : ∀ stripe ∈ stripes, 0 ≤ stripe.info.endBlock) (hpos : 0 < interleave)
    (hfits : interleave * blockSize < 2 ^ 63)
    (hs : storeIleaveCreate stripes (interleave * blockSize) flags = .ok s) :
    Interleaved stripes blockSize interleave s := by
  have hbs := blockSize_pos_of_create hne hsize hs
  rw [storeIleaveCreate, commonBlockSize_eq hne hbs hsize] at hs
  simp only [Except.bind, if_neg hbs.ne'] at hs
  split at hs
  · cases hs
  -- the factor is what it has been, in blocks
  have hnonneg : 0 ≤ interleave * blockSize := Int.mul_nonneg hpos.le (Int.natCast_nonneg _)
  have hsizeT : (toSizeT (interleave * blockSize) : Int) = interleave * blockSize :=
    toSizeT_of_nonneg hnonneg (by omega)
  have hdiv : ((toSizeT (interleave * blockSize) / blockSize : Nat) : Int) = interleave := by
    rw [Int.natCast_ediv, hsizeT, Int.mul_ediv_cancel _ (by omega)]
  have hfactor : ofSizeT (toSizeT (interleave * blockSize) / blockSize) = interleave := by
    rw [ofSizeT_of_lt, hdiv]
    have hle := Nat.div_le_self (toSizeT (interleave * blockSize)) blockSize
    omega
  have hmin : minEnd (stripes.map (stripeEnd blockSize)) = 0 := by
    apply minEnd_eq_zero
    intro e he
    obtain ⟨stripe, hstripe, rfl⟩ := mem_map.mp he
    rw [stripeEnd, if_neg (by simp [hsize stripe hstripe])]
    exact hends stripe hstripe
  rw [hfactor, hmin, map_const'] at hs
  split at hs
  · cases hs
  · next info hinfo =>
      obtain ⟨hruns, hend, hwrap, hsize⟩ := storeCreate_derived hbs hinfo
      have hsum := sum_stripeRuns stripes.length interleave
      rw [storeSetChildren] at hs
      split at hs
      · cases hs
      · cases hs
        exact ⟨hruns, hend.trans hsum, hwrap.trans hsum, rfl, hsize, rfl⟩

theorem findRun_stripeRuns (n index : Nat) {addr : Int} (hpos : 0 < interleave) (hlow : 0 ≤ addr)
    (hhigh : addr < n * interleave) :
    findRun (stripeRuns n interleave) index addr =
      some (index + (addr / interleave).toNat, ⟨0, interleave⟩, addr % interleave) := by
  induction n generalizing index addr with
  | zero =>
    rw [Nat.cast_zero, zero_mul] at hhigh
    omega
  | succ n ih =>
    simp only [stripeRuns, replicate_succ, findRun]
    rw [← stripeRuns]
    by_cases hfirst : addr < interleave
    · rw [if_pos hfirst, Int.ediv_eq_zero_of_lt hlow hfirst, Int.emod_eq_of_lt hlow hfirst]
      rfl
    · have hstep : addr - interleave = addr + interleave * (-1) := by ring
      have hdiv : (addr - interleave) / interleave = addr / interleave - 1 := by
        rw [hstep, Int.add_mul_ediv_left _ _ hpos.ne']
        rfl
      have hmod : (addr - interleave) % interleave = addr % interleave := by
        rw [hstep, Int.add_mul_emod_self_left]
      have hquot : 1 ≤ addr / interleave := (Int.le_ediv_iff_mul_le hpos).mpr (by omega)
      rw [if_neg hfirst, ih (index + 1) (by omega) (by push_cast at hhigh; linarith), hdiv, hmod]
      congr 2
      omega

theorem Interleaved.storeFindFirstRun_eq {s : Store}
    (h : Interleaved stripes blockSize interleave s) (hpos : 0 < interleave) {addr : Int}
    (hlow : 0 ≤ addr) (hhigh : addr < s.info.endBlock) :
    storeFindFirstRun s.info addr =
      some ⟨(addr / interleave).toNat, 0, ⟨0, interleave⟩, addr % interleave⟩ := by
  have hwrap : ¬(s.info.wrapSrc ≤ addr ∧ addr < s.info.endBlock) := by
    rw [h.wrapSrc, ← h.endBlock]
    omega
  rw [h.endBlock] at hhigh
  simp only [storeFindFirstRun, hwrap, decide_false, Bool.false_eq_true, if_false, h.runs,
    findRun_stripeRuns _ 0 hpos hlow hhigh, Option.map_some, Nat.zero_add]

theorem quotient_lt {n : Nat} {addr : Int} (hpos : 0 < interleave)
    (hhigh : addr < n * interleave) : addr / interleave < n :=
  Int.ediv_lt_of_lt_mul hpos hhigh

/-- `(a / I) mod n`, and `(a / (n * I)) * I + a mod I` -/
def stripePlace (n : Nat) (interleave addr : Int) : Nat × Int :=
  ((addr / interleave % n).toNat, addr / (n * interleave) * interleave + addr % interleave)

theorem Interleaved.storeLocate_eq {s : Store} (h : Interleaved stripes blockSize interleave s)
    (hpos : 0 < interleave) {addr : Int} (hlow : 0 ≤ addr) (hhigh : addr < s.info.endBlock) :
    storeLocate s.info addr = some (stripePlace stripes.length interleave addr) := by
  have hlt : addr < stripes.length * interleave := h.endBlock ▸ hhigh
  have hround : addr / (stripes.length * interleave) = 0 := Int.ediv_eq_zero_of_lt hlow hlt
  have hstripe : addr / interleave % stripes.length = addr / interleave :=
    Int.emod_eq_of_lt (Int.ediv_nonneg hlow hpos.le) (quotient_lt hpos hlt)
  rw [storeLocate, h.storeFindFirstRun_eq hpos hlow hhigh]
  simp [stripePlace, RunPosition.addr, hround, hstripe]

theorem Interleaved.storeNextRun_eq {s : Store} (h : Interleaved stripes blockSize interleave s)
    (hpos : 0 < interleave) {addr : Int} (hlow : 0 ≤ addr)
    (hhigh : addr / interleave * interleave + interleave < s.info.endBlock) :
    (storeFindFirstRun s.info addr).bind (storeNextRun s.info) =
      storeFindFirstRun s.info (addr / interleave * interleave + interleave) := by
  have hquot : 0 ≤ addr / interleave := Int.ediv_nonneg hlow hpos.le
  have hstart : 0 ≤ addr / interleave * interleave := Int.mul_nonneg hquot hpos.le
  have haddr : addr < s.info.endBlock := by
    have hsplit := Int.emod_add_mul_ediv addr interleave
    have hrest := Int.emod_lt_of_pos addr hpos
    linarith [Int.mul_comm (addr / interleave) interleave]
  have hnext : (addr / interleave * interleave + interleave) / interleave =
      addr / interleave + 1 := by
    rw [Int.add_ediv_of_dvd_right dvd_rfl, Int.mul_ediv_cancel _ hpos.ne', Int.ediv_self hpos.ne']
  have hrest : (addr / interleave * interleave + interleave) % interleave = 0 := by
    rw [Int.add_emod_right, Int.mul_emod_left]
  have hlast : addr / interleave + 1 < stripes.length := by
    rw [← hnext]
    apply quotient_lt hpos
    rw [← h.endBlock]
    exact hhigh
  rw [h.storeFindFirstRun_eq hpos hlow haddr,
    h.storeFindFirstRun_eq hpos (by omega) hhigh, hnext, hrest]
  have hrun : s.info.runs[(addr / interleave).toNat + 1]? = some ⟨0, interleave⟩ := by
    rw [h.runs, stripeRuns, List.getElem?_replicate, if_pos (by omega)]
  simp only [Option.bind_some, storeNextRun, hrun]
  congr 2
  omega

theorem stripePlace_injOn {n : Nat} (hn : 0 < n) (hpos : 0 < interleave) :
    Set.InjOn (stripePlace n interleave) { addr | 0 ≤ addr } := by
  intro a ha b hb hab
  obtain ⟨hstripe, hblock⟩ := Prod.mk.inj hab
  have hn' : (0 : Int) < n := Int.natCast_pos.mpr hn
  have hround : ∀ addr : Int, addr / (n * interleave) = addr / interleave / n := by
    intro addr
    rw [Int.mul_comm, Int.ediv_ediv_of_nonneg hpos.le]
  have hmod : a / interleave % n = b / interleave % n := by
    have ha' := Int.emod_nonneg (a / interleave) hn'.ne'
    have hb' := Int.emod_nonneg (b / interleave) hn'.ne'
    omega
  have hrest : a % interleave = b % interleave := by
    have hcut := congrArg (· % interleave) hblock
    simpa only [Int.mul_add_emod_self_right, Int.emod_emod] using hcut
  have hquot : a / interleave / n = b / interleave / n := by
    rw [hrest, hround, hround] at hblock
    exact Int.eq_of_mul_eq_mul_right hpos.ne' (add_right_cancel hblock)
  have hblocks : a / interleave = b / interleave := by
    rw [← Int.emod_add_mul_ediv (a / interleave) n, hmod, hquot, Int.emod_add_mul_ediv]
  rw [← Int.emod_add_mul_ediv a interleave, hrest, hblocks, Int.emod_add_mul_ediv]

def smallestEnd (stripes : List Store) : Int :=
  (stripes.map (·.info.endBlock)).min?.getD 0

/-- A store that has the blocks of its stripes, in turn from each stripe `interleave` of them, as
far as the smallest stripe goes. -/
structure Striped (stripes : List Store) (interleave : Int) (s : Store) : Prop where
  /-- The smallest size is rounded down to the interleave factor. -/
  size : s.size =
    stripes.length * (smallestEnd stripes / interleave * interleave) * s.info.blockSize
  locate : ∀ addr, 0 ≤ addr → addr < s.info.endBlock →
    storeLocate s.info addr = some (stripePlace stripes.length interleave addr)
  /-- A transfer that goes on behind a run goes on at the next block. -/
  next : ∀ addr, 0 ≤ addr → addr / interleave * interleave + interleave < s.info.endBlock →
    (storeFindFirstRun s.info addr).bind (storeNextRun s.info) =
      storeFindFirstRun s.info (addr / interleave * interleave + interleave)
  injOn : Set.InjOn (storeLocate s.info) { addr | 0 ≤ addr ∧ addr < s.info.endBlock }

/-- The store has one round of blocks, where it should have as many as the smallest stripe. -/
theorem ileave_striped_iff {flags : BitVec 32} {s : Store} (hne : stripes ≠ [])
    (hsize : ∀ stripe ∈ stripes, stripe.info.blockSize = blockSize)
    (hends : ∀ stripe ∈ stripes, 0 ≤ stripe.info.endBlock) (hpos : 0 < interleave)
    (hfits : interleave * blockSize < 2 ^ 63)
    (hs : storeIleaveCreate stripes (interleave * blockSize) flags = .ok s) :
    Striped stripes interleave s ↔
      interleave ≤ smallestEnd stripes ∧ smallestEnd stripes < 2 * interleave := by
  have h := interleaved_of_create hne hsize hends hpos hfits hs
  have hbs : (0 : Int) < blockSize := Int.natCast_pos.mpr (blockSize_pos_of_create hne hsize hs)
  have hlen : (0 : Int) < stripes.length := Int.natCast_pos.mpr (length_pos_iff.mpr hne)
  have hone : s.size =
        stripes.length * (smallestEnd stripes / interleave * interleave) * s.info.blockSize ↔
      smallestEnd stripes / interleave = 1 := by
    rw [Store.size, h.blockSize, h.endBlock, mul_eq_mul_right_iff, or_iff_left hbs.ne',
      mul_eq_mul_left_iff, or_iff_left hlen.ne', eq_comm, mul_eq_right₀ hpos.ne']
  have hround : smallestEnd stripes / interleave = 1 ↔
      interleave ≤ smallestEnd stripes ∧ smallestEnd stripes < 2 * interleave := by
    rw [Int.ediv_eq_iff_of_pos hpos, one_mul, ← two_mul]
  rw [← hround, ← hone]
  constructor
  · intro hstriped
    exact hstriped.size
  · intro heq
    refine ⟨heq, fun addr hlow hhigh => h.storeLocate_eq hpos hlow hhigh,
      fun addr hlow hhigh => h.storeNextRun_eq hpos hlow hhigh, ?_⟩
    intro a ha b hb hab
    rw [h.storeLocate_eq hpos ha.1 ha.2, h.storeLocate_eq hpos hb.1 hb.2] at hab
    exact stripePlace_injOn (length_pos_iff.mpr hne) hpos ha.1 hb.1 (Option.some.inj hab)

/-- Two devices with blocks of 512 bytes. -/
def twoDevices (first second : Int) : List Store :=
  [deviceStore first none [], deviceStore second none []]

/-- What `store_ileave_create` makes of two devices, with a factor of 1024 bytes. -/
def twoStripes (first second : Int) : Store :=
  ⟨{ cls := .interleave
     port := 0
     flags := 0
     blockSize := 512
     runs := [⟨0, 2⟩, ⟨0, 2⟩]
     endBlock := 4
     wrapSrc := 4
     wrapDst := 2
     blocks := 4
     log2BlockSize := 9
     name := none
     misc := [] }, twoDevices first second⟩

theorem storeIleaveCreate_two {first second : Int} (hfirst : 0 ≤ first) (hsecond : 0 ≤ second) :
    storeIleaveCreate (twoDevices first second) 1024 0 =
      .ok (twoStripes first second) := by
  have hcommon : commonBlockSize (twoDevices first second) = .ok 512 := by
    apply commonBlockSize_eq (cons_ne_nil _ _) (by decide)
    simp [deviceStore, Store.info]
  have hmin : minEnd ((twoDevices first second).map (stripeEnd 512)) = 0 := by
    apply minEnd_eq_zero
    simp [twoDevices, stripeEnd, deviceStore, Store.info, hfirst, hsecond]
  have hcreate : storeCreate .interleave 0
      (commonFlags (twoDevices first second) ||| 0) 512 [⟨0, 2⟩, ⟨0, 2⟩] 0 =
      .ok { (twoStripes first second).info with wrapDst := 0 } := by
    simp [storeCreate, storeDerive, vmPageSize, commonFlags, twoDevices, deviceStore, twoStripes,
      Store.info]
    decide
  have hfactor : ofSizeT (toSizeT 1024 / 512) = 2 := by decide
  have hruns : (twoDevices first second).map (fun _ => (⟨0, 2⟩ : StoreRun)) =
      [⟨0, 2⟩, ⟨0, 2⟩] := rfl
  simp only [storeIleaveCreate, hcommon, Except.bind, hmin, hfactor, hruns, hcreate]
  rfl

theorem ileave_striped_two :
    storeIleaveCreate (twoDevices 3 100) 1024 0 = .ok (twoStripes 3 100) ∧
      Striped (twoDevices 3 100) 2 (twoStripes 3 100) := by
  have hmade : storeIleaveCreate (twoDevices 3 100) (2 * (512 : Nat)) 0 =
      .ok (twoStripes 3 100) := storeIleaveCreate_two (by decide) (by decide)
  refine ⟨hmade, (ileave_striped_iff (cons_ne_nil _ _) ?_ ?_ ?_ ?_ hmade).mpr ?_⟩
  · decide
  · decide
  · decide
  · decide
  · decide

/-- Of two devices with 100 blocks each, four blocks are used. -/
theorem ileave_two_hundred_truncated :
    storeIleaveCreate (twoDevices 100 100) 1024 0 = .ok (twoStripes 100 100) ∧
      (twoStripes 100 100).size = 4 * 512 ∧
      ¬Striped (twoDevices 100 100) 2 (twoStripes 100 100) := by
  refine ⟨storeIleaveCreate_two (by decide) (by decide), rfl, ?_⟩
  intro h
  have hsize := h.size
  revert hsize
  decide

end Hurd.Libstore
