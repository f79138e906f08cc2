import Hurd.Framework.Outcome
import Hurd.Libstore.Store
import Mathlib.Data.List.Basic
import Mathlib.Tactic.Cases

/-!
# Remapped runs

`store_remap_runs` of `libstore/remap.c`, which puts the runs of a store in place of the runs that
are written in its blocks.
-/

namespace Hurd.Libstore

open List

/-- The blocks of a run, with nothing for the blocks of a hole. -/
def StoreRun.blocks (run : StoreRun) : List (Option Int) :=
  (List.range run.length.toNat).map fun i : Nat =>
    if run.start < 0 then none else some (run.start + i)

def runBlocks (runs : List StoreRun) : List (Option Int) := runs.flatMap StoreRun.blocks

@[simp]
theorem runBlocks_nil : runBlocks [] = [] := rfl

@[simp]
theorem runBlocks_cons (run : StoreRun) (runs : List StoreRun) :
    runBlocks (run :: runs) = run.blocks ++ runBlocks runs := rfl

@[simp]
theorem runBlocks_append (runs runs' : List StoreRun) :
    runBlocks (runs ++ runs') = runBlocks runs ++ runBlocks runs' :=
  flatMap_append

namespace StoreRun

@[simp]
theorem length_blocks (run : StoreRun) : run.blocks.length = run.length.toNat := by
  simp [blocks]

theorem getElem?_blocks (run : StoreRun) {i : Nat} (hi : i < run.length.toNat) :
    run.blocks[i]? = some (if run.start < 0 then none else some (run.start + i)) := by
  simp [blocks, hi]

theorem some_mem_blocks {run : StoreRun} {addr : Int} :
    some addr ∈ run.blocks ↔
      0 ≤ run.start ∧ run.start ≤ addr ∧ addr < run.start + run.length := by
  simp only [blocks, mem_map, mem_range]
  constructor
  · rintro ⟨i, hi, heq⟩
    split at heq
    · cases heq
    · cases heq
      omega
  · intro ⟨hstart, hle, hlt⟩
    refine ⟨(addr - run.start).toNat, by omega, ?_⟩
    rw [if_neg (by omega)]
    congr 1
    omega

theorem drop_blocks {run : StoreRun} {n : Int} (hstart : 0 ≤ run.start) (hn : 0 ≤ n) :
    run.blocks.drop n.toNat = blocks ⟨run.start + n, run.length - n⟩ := by
  apply ext_getElem?
  intro i
  rw [List.getElem?_drop]
  by_cases hi : i < (run.length - n).toNat
  · have hsum : 0 ≤ run.start + n := Int.add_nonneg hstart hn
    rw [getElem?_blocks run (by omega), getElem?_blocks _ hi, if_neg (Int.not_lt.mpr hstart),
      if_neg (Int.not_lt.mpr hsum)]
    congr 2
    push_cast
    omega
  · rw [List.getElem?_eq_none (by simp; omega), List.getElem?_eq_none (by simp; omega)]

theorem take_blocks (run : StoreRun) (n : Int) :
    run.blocks.take n.toNat = blocks ⟨run.start, if n < run.length then n else run.length⟩ := by
  simp only [blocks, ← map_take, take_range]
  congr 2
  omega

end StoreRun

/-- The run list of a store. -/
structure BaseRuns where
  runs : List StoreRun
  nonneg : ∀ run ∈ runs, 0 ≤ run.length

namespace BaseRuns

/-- The block at an address: nothing outside the list, and nothing in it for a hole. -/
def block (base : BaseRuns) (addr : Int) : Option (Option Int) := (runBlocks base.runs)[addr.toNat]?

/-- The block that a remapped block stands for. -/
def remap (base : BaseRuns) (addr : Option Int) : Option Int :=
  addr.bind fun addr => (base.block addr).join

end BaseRuns

/-- The array that `store_remap_runs` fills, and how many runs there is room for. -/
structure Xruns where
  runs : List StoreRun
  alloced : Nat

/-- `add_run` of `store_remap_runs`: `room` says for how many runs there is memory. -/
def addRun (room : Nat → Bool) (addr len : Int) (x : Xruns) : Except StoreError Xruns :=
  if x.runs.length = x.alloced then
    if room (2 * x.alloced) then .ok ⟨x.runs ++ [⟨addr, len⟩], 2 * x.alloced⟩
    else .error .noMem
  else .ok ⟨x.runs ++ [⟨addr, len⟩], x.alloced⟩

/-- The inner loop, for a run that is no hole. -/
def remapRun (room : Nat → Bool) : List StoreRun → Int → Int → Xruns → Except StoreError Xruns
  | [], _, _, x => .ok x
  | run :: base, addr, left, x =>
      if left ≤ 0 then .ok x
      else if run.length ≤ addr then remapRun room base (addr - run.length) left x
      else if run.start < 0 then .error .inval
      else
        let len := run.length - addr
        (addRun room (run.start + addr) (if left < len then left else len) x).bind
          (remapRun room base 0 (left - len))

def remapLoop (room : Nat → Bool) (base : List StoreRun) :
    List StoreRun → Xruns → Except StoreError Xruns
  | [], x => .ok x
  | run :: runs, x =>
      (if 0 ≤ run.start then remapRun room base run.start run.length x
        else addRun room (-1) run.length x).bind
        (remapLoop room base runs)

/-- `store_remap_runs`, with `num_xruns` zero as `store_remap` passes it. The `realloc` at the end,
which gives memory back, is left out. -/
def storeRemapRuns (room : Nat → Bool) (runs base : List StoreRun) :
    Except StoreError (List StoreRun) :=
  if room (runs.length + base.length) then
    (remapLoop room base runs ⟨[], runs.length + base.length⟩).map Xruns.runs
  else .error .noMem

theorem addRun_ok {room : Nat → Bool} {addr len : Int} {x y : Xruns}
    (h : addRun room addr len x = .ok y) :
    runBlocks y.runs = runBlocks x.runs ++ StoreRun.blocks ⟨addr, len⟩ := by
  have hruns : y.runs = x.runs ++ [⟨addr, len⟩] := by
    rw [addRun] at h
    split at h
    · split at h
      · cases h
        rfl
      · cases h
    · cases h
      rfl
  simp [hruns]

theorem addRun_room (addr len : Int) (x : Xruns) :
    ∃ y, addRun (fun _ => true) addr len x = .ok y := by
  rw [addRun]
  split <;> simp

/-- The blocks of the base list that a run of block numbers stands for. -/
def segment (base : List StoreRun) (addr left : Int) : List (Option Int) :=
  ((runBlocks base).drop addr.toNat).take left.toNat

theorem segment_nonpos (base : List StoreRun) (addr : Int) {left : Int} (h : left ≤ 0) :
    segment base addr left = [] := by
  rw [segment, Int.toNat_of_nonpos h, take_zero]

theorem segment_cons_of_le {run : StoreRun} {base : List StoreRun} {addr left : Int}
    (hlen : 0 ≤ run.length) (h : run.length ≤ addr) :
    segment (run :: base) addr left = segment base (addr - run.length) left := by
  have hdrop : addr.toNat = run.blocks.length + (addr - run.length).toNat := by
    rw [StoreRun.length_blocks]
    omega
  rw [segment, segment, runBlocks_cons, hdrop, drop_length_add_append]

theorem segment_cons_of_lt {run : StoreRun} {base : List StoreRun} {addr left : Int}
    (haddr : 0 ≤ addr) (h : addr < run.length) :
    segment (run :: base) addr left =
      (run.blocks.drop addr.toNat).take left.toNat ++
        segment base 0 (left - (run.length - addr)) := by
  have hlt : addr.toNat ≤ run.blocks.length := by
    rw [StoreRun.length_blocks]
    omega
  have hrest : left.toNat - (run.blocks.drop addr.toNat).length =
      (left - (run.length - addr)).toNat := by
    rw [length_drop, StoreRun.length_blocks]
    omega
  rw [segment, segment, runBlocks_cons, drop_append_of_le_length hlt, take_append, hrest]
  rfl

theorem remapRun_ok {room : Nat → Bool} {base : List StoreRun} {addr left : Int} {x y : Xruns}
    (hlen : ∀ run ∈ base, 0 ≤ run.length) (haddr : 0 ≤ addr)
    (h : remapRun room base addr left x = .ok y) :
    runBlocks y.runs = runBlocks x.runs ++ segment base addr left ∧
      none ∉ segment base addr left := by
  induction base generalizing addr left x with
  | nil =>
    cases h
    simp [segment]
  | cons run base ih =>
    have hrun := hlen run mem_cons_self
    have hbase : ∀ run ∈ base, 0 ≤ run.length := fun run hmem =>
      hlen run (mem_cons_of_mem _ hmem)
    rw [remapRun] at h
    split at h
    next hleft =>
      cases h
      simp [segment_nonpos _ _ hleft]
    split at h
    next hle =>
      rw [segment_cons_of_le hrun hle]
      exact ih hbase (Int.sub_nonneg_of_le hle) h
    split at h
    · cases h
    next hlt hhole =>
      obtain ⟨z, hz, hy⟩ := exceptBind_eq_ok.mp h
      have hfirst : (run.blocks.drop addr.toNat).take left.toNat =
          StoreRun.blocks ⟨run.start + addr,
            if left < run.length - addr then left else run.length - addr⟩ := by
        rw [StoreRun.drop_blocks (Int.not_lt.mp hhole) haddr, StoreRun.take_blocks]
      have hnone : none ∉ (run.blocks.drop addr.toNat).take left.toNat := by
        intro hmem
        have := mem_of_mem_drop (mem_of_mem_take hmem)
        simp [StoreRun.blocks, hhole] at this
      obtain ⟨hblocks, hrest⟩ := ih hbase (Int.le_refl 0) hy
      rw [segment_cons_of_lt haddr (Int.not_le.mp hlt)]
      constructor
      · rw [hblocks, addRun_ok hz, hfirst, append_assoc]
      · simp [hnone, hrest]

theorem remapRun_error {base : List StoreRun} {addr left : Int} {x : Xruns} {e : StoreError}
    (hlen : ∀ run ∈ base, 0 ≤ run.length) (haddr : 0 ≤ addr)
    (h : remapRun (fun _ => true) base addr left x = .error e) :
    none ∈ segment base addr left := by
  induction base generalizing addr left x with
  | nil => cases h
  | cons run base ih =>
    have hrun := hlen run mem_cons_self
    have hbase : ∀ run ∈ base, 0 ≤ run.length := fun run hmem =>
      hlen run (mem_cons_of_mem _ hmem)
    rw [remapRun] at h
    split at h
    · cases h
    next hleft =>
    split at h
    next hle =>
      rw [segment_cons_of_le hrun hle]
      exact ih hbase (Int.sub_nonneg_of_le hle) h
    next hlt =>
    rw [segment_cons_of_lt haddr (Int.not_le.mp hlt)]
    split at h
    next hhole =>
      apply mem_append_left
      rw [mem_iff_getElem?]
      refine ⟨0, ?_⟩
      rw [List.getElem?_take_of_lt (by omega), List.getElem?_drop,
        StoreRun.getElem?_blocks run (by omega), if_pos hhole]
    next hhole =>
      obtain ⟨y, hy⟩ := addRun_room (run.start + addr)
        (if left < run.length - addr then left else run.length - addr) x
      simp only [hy, Except.bind] at h
      exact mem_append_right _ (ih hbase (Int.le_refl 0) h)

/-- The blocks of the base list for a run, with a hole for a hole. -/
def StoreRun.remapped (base : List StoreRun) (run : StoreRun) : List (Option Int) :=
  if 0 ≤ run.start then segment base run.start run.length else run.blocks

def StoreRun.HitsHole (base : List StoreRun) (run : StoreRun) : Prop :=
  0 ≤ run.start ∧ none ∈ segment base run.start run.length

theorem remapLoop_ok {room : Nat → Bool} {base runs : List StoreRun} {x y : Xruns}
    (hlen : ∀ run ∈ base, 0 ≤ run.length) (h : remapLoop room base runs x = .ok y) :
    runBlocks y.runs = runBlocks x.runs ++ runs.flatMap (StoreRun.remapped base) ∧
      ∀ run ∈ runs, ¬ run.HitsHole base := by
  induction runs generalizing x with
  | nil =>
    cases h
    simp
  | cons run runs ih =>
    rw [remapLoop] at h
    obtain ⟨z, hz, hy⟩ := exceptBind_eq_ok.mp h
    obtain ⟨hblocks, hholes⟩ := ih hy
    have hrun : runBlocks z.runs = runBlocks x.runs ++ run.remapped base ∧
        ¬ run.HitsHole base := by
      rw [StoreRun.remapped, StoreRun.HitsHole]
      split at hz
      next hstart =>
        rw [if_pos hstart]
        obtain ⟨hseg, hnone⟩ := remapRun_ok hlen hstart hz
        exact ⟨hseg, fun hhit => hnone hhit.2⟩
      next hstart =>
        rw [if_neg hstart]
        refine ⟨?_, fun hhit => hstart hhit.1⟩
        rw [addRun_ok hz]
        congr 1
        simp [StoreRun.blocks, Int.not_le.mp hstart]
    constructor
    · rw [hblocks, hrun.1, flatMap_cons, append_assoc]
    · intro other hmem
      cases hmem with
      | head => exact hrun.2
      | tail _ hmem => exact hholes other hmem

theorem remapLoop_error {base runs : List StoreRun} {x : Xruns} {e : StoreError}
    (hlen : ∀ run ∈ base, 0 ≤ run.length)
    (h : remapLoop (fun _ => true) base runs x = .error e) : ∃ run ∈ runs, run.HitsHole base := by
  induction runs generalizing x with
  | nil => cases h
  | cons run runs ih =>
    rw [remapLoop] at h
    rcases exceptBind_eq_error.mp h with hfirst | ⟨y, _, hrest⟩
    · refine ⟨run, mem_cons_self, ?_⟩
      split at hfirst
      next hstart => exact ⟨hstart, remapRun_error hlen hstart hfirst⟩
      next =>
        obtain ⟨y, hy⟩ := addRun_room (-1) run.length x
        rw [hy] at hfirst
        cases hfirst
    · obtain ⟨other, hmem, hhit⟩ := ih hrest
      exact ⟨other, mem_cons_of_mem _ hmem, hhit⟩

theorem getElem?_segment {base : List StoreRun} {addr left : Int} {i : Nat}
    (hi : i < left.toNat) : (segment base addr left)[i]? = (runBlocks base)[addr.toNat + i]? := by
  rw [segment, List.getElem?_take_of_lt hi, List.getElem?_drop]

theorem StoreRun.hitsHole_iff {base : BaseRuns} {run : StoreRun} :
    run.HitsHole base.runs ↔ ∃ addr, some addr ∈ run.blocks ∧ base.block addr = some none := by
  constructor
  · intro ⟨hstart, hmem⟩
    obtain ⟨i, hi⟩ := mem_iff_getElem?.mp hmem
    have hlt : i < run.length.toNat := by
      have := (List.getElem?_eq_some_iff.mp hi).1
      rw [segment, length_take] at this
      omega
    refine ⟨run.start + i, some_mem_blocks.mpr (by omega), ?_⟩
    rw [getElem?_segment hlt] at hi
    rw [BaseRuns.block, ← hi]
    congr 1
    omega
  · intro ⟨addr, hmem, hblock⟩
    obtain ⟨hstart, hle, hlt⟩ := some_mem_blocks.mp hmem
    refine ⟨hstart, mem_iff_getElem?.mpr ⟨(addr - run.start).toNat, ?_⟩⟩
    rw [getElem?_segment (by omega), ← hblock, BaseRuns.block]
    congr 1
    omega

theorem StoreRun.remapped_eq_map {base : BaseRuns} {run : StoreRun}
    (h : ∀ addr, some addr ∈ run.blocks → base.block addr ≠ none) :
    run.remapped base.runs = run.blocks.map base.remap := by
  rw [remapped]
  split
  next hstart =>
    apply ext_getElem?
    intro i
    by_cases hi : i < run.length.toNat
    · have hin := h (run.start + i) (some_mem_blocks.mpr (by omega))
      have haddr : (run.start + i).toNat = run.start.toNat + i := by omega
      rw [BaseRuns.block, haddr] at hin
      obtain ⟨block, hblock⟩ := Option.ne_none_iff_exists'.mp hin
      rw [getElem?_segment hi, hblock, List.getElem?_map, getElem?_blocks run hi,
        if_neg (Int.not_lt.mpr hstart)]
      simp [BaseRuns.remap, BaseRuns.block, haddr, hblock]
    · rw [List.getElem?_eq_none (by rw [segment, length_take]; omega),
        List.getElem?_eq_none (by rw [length_map, length_blocks]; omega)]
  next hstart => simp [blocks, Int.not_le.mp hstart, BaseRuns.remap]

/-- What is said of `store_remap_runs`: where it succeeds its blocks are those of the remapping runs,
each replaced by the block of the base list that it stands for, and it is an error if a remapping
run reaches outside the base list. -/
def Remaps (room : Nat → Bool) (runs : List StoreRun) (base : BaseRuns) : Prop :=
  (∀ xruns, storeRemapRuns room runs base.runs = .ok xruns →
      runBlocks xruns = (runBlocks runs).map base.remap) ∧
    ((∃ addr, some addr ∈ runBlocks runs ∧ base.block addr = none) →
      ∃ e, storeRemapRuns room runs base.runs = .error e)

theorem mem_runBlocks {runs : List StoreRun} {block : Option Int} :
    block ∈ runBlocks runs ↔ ∃ run ∈ runs, block ∈ run.blocks :=
  mem_flatMap

theorem storeRemapRuns_ok {room : Nat → Bool} {runs : List StoreRun} {base : BaseRuns}
    {xruns : List StoreRun} (h : storeRemapRuns room runs base.runs = .ok xruns) :
    runBlocks xruns = runs.flatMap (StoreRun.remapped base.runs) ∧
      ∀ run ∈ runs, ¬ run.HitsHole base.runs := by
  rw [storeRemapRuns] at h
  split at h
  · obtain ⟨x, hx, rfl⟩ := exceptMap_eq_ok.mp h
    simpa using remapLoop_ok base.nonneg hx
  · cases h

/-- The code never tests whether something is left of a run behind the base list. So it does what is
said of it, whatever memory there is, exactly when no remapping run reaches outside the base list or
one of them refers to a hole of it. -/
theorem remap_runs_compose (runs : List StoreRun) (base : BaseRuns) :
    (∀ room, Remaps room runs base) ↔
      (∀ addr, some addr ∈ runBlocks runs → base.block addr ≠ none) ∨
        ∃ addr, some addr ∈ runBlocks runs ∧ base.block addr = some none := by
  constructor
  · intro h
    by_cases hin : ∀ addr, some addr ∈ runBlocks runs → base.block addr ≠ none
    · exact Or.inl hin
    · right
      push Not at hin
      obtain ⟨e, he⟩ := (h fun _ => true).2 hin
      rw [storeRemapRuns, if_pos rfl] at he
      obtain ⟨run, hrun, hhit⟩ := remapLoop_error base.nonneg (exceptMap_eq_error.mp he)
      obtain ⟨addr, hmem, hblock⟩ := StoreRun.hitsHole_iff.mp hhit
      exact ⟨addr, mem_runBlocks.mpr ⟨run, hrun, hmem⟩, hblock⟩
  · intro h room
    rcases h with hin | ⟨addr, hmem, hblock⟩
    · constructor
      · intro xruns hx
        rw [(storeRemapRuns_ok hx).1, runBlocks, map_flatMap]
        apply flatMap_congr
        intro run hrun
        apply StoreRun.remapped_eq_map
        intro addr hmem
        exact hin addr (mem_runBlocks.mpr ⟨run, hrun, hmem⟩)
      · intro ⟨addr, hmem, hnone⟩
        exact absurd hnone (hin addr hmem)
    · obtain ⟨run, hrun, hmem⟩ := mem_runBlocks.mp hmem
      have hhit := StoreRun.hitsHole_iff.mpr ⟨addr, hmem, hblock⟩
      constructor
      · intro xruns hx
        exact absurd hhit ((storeRemapRuns_ok hx).2 run hrun)
      · intro _
        cases hx : storeRemapRuns room runs base.runs with
        | error e => exact ⟨e, rfl⟩
        | ok xruns => exact absurd hhit ((storeRemapRuns_ok hx).2 run hrun)

/-- Ten blocks of a store that has four: four are left, and it is no error. -/
theorem remap_past_end :
    storeRemapRuns (fun _ => true) [⟨0, 10⟩] [⟨100, 4⟩] = .ok [⟨100, 4⟩] ∧
      ¬ Remaps (fun _ => true) [⟨0, 10⟩] ⟨[⟨100, 4⟩], by decide⟩ := by
  have hok : storeRemapRuns (fun _ => true) [⟨0, 10⟩] [⟨100, 4⟩] = .ok [⟨100, 4⟩] := rfl
  refine ⟨hok, fun h => ?_⟩
  have hblocks := h.1 _ hok
  revert hblocks
  decide

end Hurd.Libstore
