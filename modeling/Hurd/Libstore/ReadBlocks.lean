import Hurd.Libstore.ReadRuns

/-!
# What is read

The blocks that `store_read` returns from a store whose runs are no holes and do not repeat.
-/

namespace Hurd.Libstore

open List

theorem findRun_isSome {runs : List StoreRun} {addr : Int}
    (h : addr < (runs.map (·.length)).sum) (first : Nat) (hpos : 0 ≤ addr) :
    ∃ found, findRun runs first addr = some found := by
  induction runs generalizing addr first with
  | nil => exact absurd (lt_of_le_of_lt hpos h) (lt_irrefl 0)
  | cons run runs ih =>
    rw [findRun]
    split
    · exact ⟨_, rfl⟩
    next hlt =>
      apply ih
      · rw [map_cons, sum_cons] at h
        omega
      · exact Int.sub_nonneg_of_le (Int.not_lt.mp hlt)

theorem findRun_drop (base : Int) {runs : List StoreRun} {addr offset : Int}
    {first index : Nat} {run : StoreRun} (hnonneg : ∀ run ∈ runs, 0 ≤ run.length) (haddr : 0 ≤ addr)
    (h : findRun runs first addr = some (index, run, offset)) :
    0 ≤ offset ∧ offset < run.length ∧ offset ≤ addr ∧
      (runPlaces base runs first).drop addr.toNat =
        placesFrom index (base + run.start + offset) (run.length - offset).toNat ++
          runPlaces base (runs.drop (index - first + 1)) (index + 1) := by
  induction runs generalizing first addr with
  | nil => cases h
  | cons head runs ih =>
    obtain ⟨hhead, hruns⟩ := forall_mem_cons.mp hnonneg
    rw [findRun] at h
    split at h
    next hlt =>
      cases h
      refine ⟨haddr, hlt, le_refl _, ?_⟩
      rw [runPlaces, drop_append_of_le_length (by rw [length_placesFrom]; omega),
        drop_placesFrom (by omega), Nat.sub_self]
      congr 2
      · omega
      · omega
    next hlt =>
      obtain ⟨hoffset, hlen, hle, hdrop⟩ := ih hruns (Int.sub_nonneg_of_le (Int.not_lt.mp hlt)) h
      have hindex := (findRun_index h).1
      have hskip : addr.toNat = (placesFrom first (base + head.start) head.length.toNat).length +
          (addr - head.length).toNat := by
        rw [length_placesFrom]
        omega
      refine ⟨hoffset, hlen, by omega, ?_⟩
      rw [runPlaces, hskip, drop_length_add_append, hdrop,
        show index - first + 1 = index - (first + 1) + 1 + 1 by omega]
      rfl

/-- The address is in the first run that has blocks. -/
def InFirstRun (runs : List StoreRun) (addr : Int) : Prop :=
  ∃ run, (runs.find? fun run => 0 < run.length) = some run ∧ addr < run.length

theorem findRun_offset_eq {runs : List StoreRun} {addr offset : Int} {first index : Nat}
    {run : StoreRun} (hnonneg : ∀ run ∈ runs, 0 ≤ run.length) (haddr : 0 ≤ addr)
    (h : findRun runs first addr = some (index, run, offset)) :
    offset = addr ↔ InFirstRun runs addr := by
  induction runs generalizing first with
  | nil => cases h
  | cons head runs ih =>
    obtain ⟨hhead, hruns⟩ := forall_mem_cons.mp hnonneg
    rw [findRun] at h
    split at h
    next hlt =>
      have hpos : 0 < head.length := lt_of_le_of_lt haddr hlt
      cases h
      simp [InFirstRun, hpos, hlt]
    next hlt =>
      rcases hhead.eq_or_lt with hzero | hpos
      · rw [← hzero, Int.sub_zero] at h
        rw [ih hruns h]
        simp [InFirstRun, ← hzero]
      · have hoffset := (findRun_drop 0 hruns
          (Int.sub_nonneg_of_le (Int.not_lt.mp hlt)) h).2.2.1
        simp only [InFirstRun, List.find?_cons, hpos, decide_true, Option.some.injEq,
          exists_eq_left', hlt, iff_false]
        omega

def PlainStore.rest (s : PlainStore) (p : RunPosition) : List (Nat × Int) :=
  placesFrom p.index p.addr (p.run.length - p.offset).toNat ++ s.ahead p

/-- What is known of the position of an address in the store. -/
structure PlainStore.At (s : PlainStore) (addr : Int) (p : RunPosition) : Prop where
  first : storeFirst s.info addr = .ok p
  base : p.base = 0
  run : s.info.runs[p.index]? = some p.run
  offset_nonneg : 0 ≤ p.offset
  offset_lt : p.offset < p.run.length
  offset_le : p.offset ≤ addr
  rest : s.rest p = s.places.drop addr.toNat
  first_run : p.offset = addr ↔ InFirstRun s.info.runs addr

theorem PlainStore.exists_at (s : PlainStore) {addr : Int} (hpos : 0 ≤ addr)
    (hend : addr < s.info.endBlock) : ∃ p, s.At addr p := by
  have hnonneg := fun run hrun => (s.runs_nonneg run hrun).2
  have hwrap : addr < s.info.wrapSrc := lt_of_lt_of_le hend s.unwrapped
  obtain ⟨⟨index, run, offset⟩, hfind⟩ := findRun_isSome (s.wrapSrc_eq ▸ hwrap) 0 hpos
  obtain ⟨hoffset, hlen, hle, hdrop⟩ := findRun_drop 0 hnonneg hpos hfind
  have hfirst : storeFirst s.info addr = .ok ⟨index, 0, run, offset⟩ := by
    rw [storeFirst, if_neg (by omega), storeFindFirstRun]
    simp [Int.not_le.mpr hwrap, hfind, Int.not_lt.mpr hoffset]
  refine ⟨⟨index, 0, run, offset⟩, hfirst, rfl, storeFirst_index hfirst, hoffset, hlen, hle, ?_,
    findRun_offset_eq hnonneg hpos hfind⟩
  rw [PlainStore.places, hdrop]
  rfl

theorem PlainStore.length_places (s : PlainStore) : (s.places.length : Int) = s.info.wrapSrc := by
  rw [PlainStore.places, length_runPlaces _ _ _ fun run hrun => (s.runs_nonneg run hrun).2,
    s.wrapSrc_eq]

/-- The number of blocks that a read from a position is cut to. The sum of the offset and the amount
may have overflowed. -/
def cutBlocks (s : PlainStore) (offset : Int) (n : Nat) : Nat :=
  if s.info.endBlock < offset + n ∧ (offset + n) * s.info.blockSize < 2 ^ 64 then
    (s.info.endBlock - offset).toNat
  else n

theorem pastEnd_iff (s : PlainStore) {offset : Int} {n : Nat} (hpos : 0 ≤ offset)
    (hend : offset < s.info.endBlock) (hn : n * s.info.blockSize < 2 ^ 64) :
    s.info.PastEnd offset (n * s.info.blockSize) ↔
      s.info.endBlock < offset + n ∧ (offset + n) * s.info.blockSize < 2 ^ 64 := by
  have hbs : (0 : Int) < s.info.blockSize := by exact_mod_cast s.blockSize_pos
  have hfits : s.info.endBlock * s.info.blockSize < 2 ^ 63 :=
    lt_of_le_of_lt (Int.mul_le_mul_of_nonneg_right s.unwrapped hbs.le) s.fits
  have hoff : offset * s.info.blockSize < s.info.endBlock * s.info.blockSize :=
    Int.mul_lt_mul_of_pos_right hend hbs
  have hsize : s.info.size = s.info.endBlock * 2 ^ s.info.log2BlockSize := by
    rw [StoreInfo.size, s.blockSize_eq]
    push_cast
    rfl
  have hsum : (offset + n) * s.info.blockSize =
      offset * s.info.blockSize + (n : Int) * s.info.blockSize := Int.add_mul _ _ _
  have hlt : s.info.endBlock < offset + n ↔
      s.info.endBlock * s.info.blockSize < (offset + n) * s.info.blockSize :=
    (Int.mul_lt_mul_right hbs).symm
  rw [StoreInfo.PastEnd, hsize, s.toSizeT_mul (by omega) (by omega), s.toSizeT_mul hpos (by omega),
    hlt, hsum]
  have hE : ((s.info.endBlock.toNat * s.info.blockSize : Nat) : Int) =
      s.info.endBlock * s.info.blockSize := by
    rw [Int.natCast_mul, Int.toNat_of_nonneg (by omega)]
  have hO : ((offset.toNat * s.info.blockSize : Nat) : Int) = offset * s.info.blockSize := by
    rw [Int.natCast_mul, Int.toNat_of_nonneg hpos]
  have hN : ((n * s.info.blockSize : Nat) : Int) = (n : Int) * s.info.blockSize :=
    Int.natCast_mul _ _
  omega

theorem readAmount_eq (s : PlainStore) {p : RunPosition} {n : Nat} (hpos : 0 ≤ p.offset)
    (hend : p.offset < s.info.endBlock) (hn : n * s.info.blockSize < 2 ^ 64) :
    readAmount s.info p (n * s.info.blockSize) = cutBlocks s p.offset n * s.info.blockSize := by
  rw [readAmount, cutBlocks]
  by_cases hcut : s.info.PastEnd p.offset (n * s.info.blockSize)
  · rw [if_pos hcut, if_pos ((pastEnd_iff s hpos hend hn).mp hcut)]
    have hsize : s.info.size - p.offset * 2 ^ s.info.log2BlockSize =
        (s.info.endBlock - p.offset) * 2 ^ s.info.log2BlockSize := by
      rw [StoreInfo.size, s.blockSize_eq, Int.sub_mul]
      push_cast
      rfl
    have hle : (s.info.endBlock - p.offset) * s.info.blockSize ≤
        s.info.wrapSrc * s.info.blockSize := by
      apply Int.mul_le_mul_of_nonneg_right ?_ (Int.natCast_nonneg _)
      have := s.unwrapped
      omega
    have := s.fits
    rw [hsize, s.toSizeT_mul (by omega) (by omega)]
  · rw [if_neg hcut, if_neg fun h => hcut ((pastEnd_iff s hpos hend hn).mpr h)]

theorem not_unaligned (s : PlainStore) (n : Nat) : ¬ s.info.Unaligned (n * s.info.blockSize) := by
  rintro ⟨_, h⟩
  apply h
  rw [s.blockSize_eq, Nat.and_two_pow_sub_one_eq_mod]
  exact Nat.mul_mod_left _ _

section Read

variable {s : PlainStore} {addr : Int} {p : RunPosition}

theorem storeRead_eq (hp : s.At addr p) (hend : addr < s.info.endBlock) {n : Nat}
    (hn : n * s.info.blockSize < 2 ^ 64) (mmap : Nat → Bool)
    (method : Method (List UInt8) List.length) (fuel bufLen : Nat) :
    storeRead s.info mmap method fuel addr (n * s.info.blockSize) bufLen =
      if (cutBlocks s p.offset n : Int) ≤ p.run.length - p.offset then
        method.call p (cutBlocks s p.offset n * s.info.blockSize) (.stop .success)
      else if bufLen < cutBlocks s p.offset n * s.info.blockSize ∧
          mmap (cutBlocks s p.offset n * s.info.blockSize) = false then .stop (.error .noMem)
      else
        shortRead (splitRuns s.info method fuel p (cutBlocks s p.offset n * s.info.blockSize)) := by
  have hmem := mem_of_getElem? hp.run
  have hstart := (s.runs_nonneg p.run hmem).1
  have hlen := hp.offset_lt
  have hfits := s.length_mul_lt hmem
  have hblocks : toSizeT (p.run.length - p.offset) = (p.run.length - p.offset).toNat := by
    apply s.toSizeT_blocks (by omega)
    refine lt_of_le_of_lt (Int.mul_le_mul_of_nonneg_right ?_ (Int.natCast_nonneg _))
      (hfits.trans (by decide))
    have := hp.offset_nonneg
    omega
  have hdiv : cutBlocks s p.offset n * s.info.blockSize / 2 ^ s.info.log2BlockSize =
      cutBlocks s p.offset n := by
    rw [← s.blockSize_eq, Nat.mul_div_cancel _ s.blockSize_pos]
  rw [storeRead, hp.first]
  simp only
  rw [if_neg (Int.not_lt.mpr hstart),
    readAmount_eq s hp.offset_nonneg (lt_of_le_of_lt hp.offset_le hend) hn,
    if_neg (not_unaligned s _), hdiv, hblocks]
  by_cases hle : (cutBlocks s p.offset n : Int) ≤ p.run.length - p.offset
  · rw [if_pos hle, if_pos (by omega)]
  · rw [if_neg hle, if_neg (by omega)]

theorem storeRead_mono (s : StoreInfo) (mmap : Nat → Bool)
    (method : Method (List UInt8) List.length) (fuel : Nat) (addr : Int) (amount bufLen : Nat)
    (h : (storeRead s mmap method fuel addr amount bufLen).ending ≠ .unfinished) (more : Nat) :
    storeRead s mmap method (fuel + more) addr amount bufLen =
      storeRead s mmap method fuel addr amount bufLen := by
  rw [storeRead] at h ⊢
  rw [storeRead]
  cases hp : storeFirst s addr with
  | error ending => rfl
  | ok p =>
    simp only [hp] at h ⊢
    split
    · rfl
    next hstart =>
    rw [if_neg hstart] at h
    split
    · rfl
    next haligned =>
    rw [if_neg haligned] at h
    split
    · rfl
    next hone =>
    rw [if_neg hone] at h
    split
    · rfl
    next hmem =>
    rw [if_neg hmem] at h
    congr 1
    rw [splitRuns] at h ⊢
    rw [splitRuns]
    split
    next hfull =>
      rw [if_pos hfull] at h
      apply nextRuns_mono
      intro hunfinished
      apply h
      rw [shortRead, if_neg fun hshort => hshort.1 hunfinished, hunfinished]
    · rfl

variable {content : Storage s.info.blockSize} {method : Method (List UInt8) List.length}

@[simp]
theorem data_shortRead (t : Transfer (List UInt8)) : (shortRead t).data = t.data := by
  rw [shortRead]
  split <;> rfl

theorem shortRead_of_success {t : Transfer (List UInt8)} (h : t.ending = .success) :
    shortRead t = t := by
  rw [shortRead]
  split
  · rw [← h]
  · rfl

theorem splitRuns_first (hserves : ServesRuns s.info content method 0) (hp : s.At addr p)
    (n : Nat) :
    ∃ t, (Transfer.stop .success).Adds t
        (content.bytes (placesFrom p.index p.addr (p.run.length - p.offset).toNat)) ∧
      ∀ fuel, splitRuns s.info method fuel p (n * s.info.blockSize) =
        nextRuns s.info method fuel p
          ((n - (p.run.length - p.offset).toNat) * s.info.blockSize) t := by
  have hlen := hp.offset_lt
  have hmem := mem_of_getElem? hp.run
  have hsize : toSizeT ((p.run.length - p.offset) * 2 ^ s.info.log2BlockSize) =
      (p.run.length - p.offset).toNat * s.info.blockSize := by
    apply s.toSizeT_mul (by omega)
    refine lt_of_le_of_lt (Int.mul_le_mul_of_nonneg_right ?_ (Int.natCast_nonneg _))
      ((s.length_mul_lt hmem).trans (by decide))
    have := hp.offset_nonneg
    omega
  have hadds := call_adds (n := (p.run.length - p.offset).toNat) (hp.base ▸ hserves) hp.run
    hp.offset_nonneg (by omega) (.stop .success)
  refine ⟨_, hadds, fun fuel => ?_⟩
  have hfull := hadds.full
  rw [length_placesFrom] at hfull
  simp only [splitRuns, hsize]
  rw [if_pos (by simpa [Transfer.stop, Transfer.amount] using hfull), Nat.sub_mul]

theorem splitRuns_serves (hserves : ServesRuns s.info content method 0) (hp : s.At addr p) {n : Nat}
    (hn : p.run.length - p.offset < n)
    (h : n ≤ (s.rest p).length ∨ s.info.endBlock ≤ s.info.wrapDst) :
    ∃ fuel, (Transfer.stop .success).Adds (splitRuns s.info method fuel p (n * s.info.blockSize))
      (content.bytes ((s.rest p).take n)) := by
  have hlen := hp.offset_lt
  obtain ⟨t, hadds, heq⟩ := splitRuns_first hserves hp n
  have hserves' : ServesRuns s.info content method p.base := hp.base ▸ hserves
  have htake : (s.rest p).take n =
      placesFrom p.index p.addr (p.run.length - p.offset).toNat ++
        (s.ahead p).take (n - (p.run.length - p.offset).toNat) := by
    rw [PlainStore.rest, take_append, length_placesFrom,
      take_of_length_le (by rw [length_placesFrom]; omega)]
  rw [htake, content.bytes_append]
  by_cases hwithin : n - (p.run.length - p.offset).toNat ≤ (s.ahead p).length
  · refine ⟨s.info.runs.length + 1, hadds.trans ?_⟩
    rw [heq]
    exact nextRuns_within (Nat.le_add_left _ _) hserves' hadds.1 hwithin
  · have hstop : s.info.endBlock ≤ s.info.wrapDst := by
      rcases h with hle | hstop
      · rw [PlainStore.rest, length_append, length_placesFrom] at hle
        omega
      · exact hstop
    obtain ⟨q, t', hbase, hlast, hmore, heq'⟩ := nextRuns_round 1 hserves' hadds.1
      (Nat.not_le.mp hwithin)
    refine ⟨1 + (s.info.runs.drop (p.index + 1)).length, hadds.trans ?_⟩
    rw [heq, heq', nextRuns_stop hlast (by rw [hbase, hp.base, Int.zero_add]; exact hstop),
      take_of_length_le (Nat.le_of_not_le hwithin)]
    exact hmore

theorem splitRuns_wraps (hp : s.At addr p) {n fuel : Nat} (hn : (s.rest p).length < n)
    (hwraps : s.info.wrapDst < s.info.endBlock)
    (hend : (splitRuns s.info (readsAll content) fuel p (n * s.info.blockSize)).ending ≠
      .unfinished) :
    (s.rest p).length * s.info.blockSize <
      (splitRuns s.info (readsAll content) fuel p (n * s.info.blockSize)).data.length := by
  have hlen := hp.offset_lt
  have hserves := servesRuns_readsAll s content
  obtain ⟨t, hadds, heq⟩ := splitRuns_first (hserves 0) hp n
  rw [PlainStore.rest, length_append, length_placesFrom] at hn
  obtain ⟨q, t', hbase, hlast, hmore, heq'⟩ := nextRuns_round fuel (hserves p.base)
    hadds.1 (show (s.ahead p).length < n - (p.run.length - p.offset).toNat by omega)
  have hmono := nextRuns_mono (heq fuel ▸ hend) (s.info.runs.drop (p.index + 1)).length
  have hpos : 0 < s.info.wrapSrc := by
    have hle := s.unwrapped
    have := s.length_places
    have hrest := congrArg List.length hp.rest
    rw [PlainStore.rest, length_append, length_placesFrom, length_drop] at hrest
    omega
  have hlonger : t'.data.length < (splitRuns s.info (readsAll content) fuel p
      (n * s.info.blockSize)).data.length := by
    rw [heq] at hend ⊢
    rw [← hmono, heq'] at hend ⊢
    exact nextRuns_wraps hlast (by rw [hbase, hp.base, Int.zero_add]; exact hwraps) hpos
      (by omega) hend
  rw [(hadds.trans hmore).2, length_append, ← content.bytes_append,
    Storage.length_bytes] at hlonger
  rw [PlainStore.rest]
  exact lt_of_le_of_lt (Nat.le_add_left _ _) hlonger

/-- The read ends with the blocks from the address on, `n` of them or up to the end of the store,
unless memory for them has been refused. -/
def ReadsBlocks (s : PlainStore) (content : Storage s.info.blockSize) (addr : Int) (n bufLen : Nat)
    (mmap : Nat → Bool) (method : Method (List UInt8) List.length) : Prop :=
  ∃ fuel t, storeRead s.info mmap method fuel addr (n * s.info.blockSize) bufLen = t ∧
    (t.ending = .success ∧ t.data = content.bytes
        ((s.places.drop addr.toNat).take (min n (s.info.endBlock - addr).toNat)) ∨
      t.ending = .error .noMem ∧ ∃ amount, mmap amount = false)

theorem data_of_adds {t : Transfer (List UInt8)} {bytes : List UInt8}
    (h : (Transfer.stop .success).Adds t bytes) : t.data = bytes := by
  rw [h.2]
  rfl

theorem storeRead_serves (hserves : ServesRuns s.info content method 0) (hp : s.At addr p)
    (hend : addr < s.info.endBlock) {n : Nat} (hn : n * s.info.blockSize < 2 ^ 64)
    (mmap : Nat → Bool) (bufLen : Nat)
    (h : cutBlocks s p.offset n ≤ (s.rest p).length ∨ s.info.endBlock ≤ s.info.wrapDst) :
    ∃ fuel t, storeRead s.info mmap method fuel addr (n * s.info.blockSize) bufLen = t ∧
      (t.ending = .success ∧
          t.data = content.bytes ((s.rest p).take (cutBlocks s p.offset n)) ∨
        t.ending = .error .noMem ∧ ∃ amount, mmap amount = false) := by
  have hlen := hp.offset_lt
  by_cases hone : (cutBlocks s p.offset n : Int) ≤ p.run.length - p.offset
  · have hadds := call_adds (n := cutBlocks s p.offset n) (hp.base ▸ hserves) hp.run
      hp.offset_nonneg (by omega) (.stop .success)
    refine ⟨0, _, rfl, Or.inl ?_⟩
    rw [storeRead_eq hp hend hn, if_pos hone]
    refine ⟨hadds.1, ?_⟩
    rw [data_of_adds hadds, PlainStore.rest,
      take_append_of_le_length (by rw [length_placesFrom]; omega),
      take_placesFrom (by omega)]
  by_cases hmem : bufLen < cutBlocks s p.offset n * s.info.blockSize ∧
      mmap (cutBlocks s p.offset n * s.info.blockSize) = false
  · refine ⟨0, _, rfl, Or.inr ?_⟩
    rw [storeRead_eq hp hend hn, if_neg hone, if_pos hmem]
    exact ⟨rfl, _, hmem.2⟩
  · obtain ⟨fuel, hadds⟩ := splitRuns_serves hserves hp (by omega) h
    refine ⟨fuel, _, rfl, Or.inl ?_⟩
    rw [storeRead_eq hp hend hn, if_neg hone, if_neg hmem, shortRead_of_success hadds.1]
    exact ⟨hadds.1, data_of_adds hadds⟩

theorem length_rest (hpos : 0 ≤ addr) (hend : addr < s.info.endBlock) (hp : s.At addr p) :
    ((s.rest p).length : Int) = s.info.wrapSrc - addr := by
  have hplaces := s.length_places
  have hle := s.unwrapped
  rw [hp.rest, length_drop]
  omega

/-- The request is cut as it should be, or the list ends with the store and is read to its end. -/
def RightCut (s : PlainStore) (addr : Int) (n : Nat) : Prop :=
  n ≤ s.info.endBlock - addr ∨
    InFirstRun s.info.runs addr ∧ (addr + n) * s.info.blockSize < 2 ^ 64 ∨
      s.info.endBlock = s.info.wrapSrc ∧ s.info.endBlock ≤ s.info.wrapDst

theorem RightCut.take_eq {n : Nat} (h : RightCut s addr n) (hpos : 0 ≤ addr)
    (hend : addr < s.info.endBlock) (hp : s.At addr p) :
    (cutBlocks s p.offset n ≤ (s.rest p).length ∨ s.info.endBlock ≤ s.info.wrapDst) ∧
      (s.rest p).take (cutBlocks s p.offset n) =
        (s.rest p).take (min n (s.info.endBlock - addr).toNat) := by
  have hrest := length_rest hpos hend hp
  have hle := s.unwrapped
  have hoff := hp.offset_le
  rcases h with hn | ⟨hfirst, hlt⟩ | ⟨hlast, hstop⟩
  · have hcut : cutBlocks s p.offset n = n := if_neg fun hcut => by omega
    rw [hcut, Nat.min_eq_left (by omega)]
    exact ⟨Or.inl (by omega), rfl⟩
  · rw [hp.first_run.mpr hfirst, cutBlocks]
    split
    · rw [Nat.min_eq_right (by omega)]
      exact ⟨Or.inl (by omega), rfl⟩
    · next hcut =>
        have : n ≤ s.info.endBlock - addr := by
          by_contra hmore
          exact hcut ⟨by omega, hlt⟩
        rw [Nat.min_eq_left (by omega)]
        exact ⟨Or.inl (by omega), rfl⟩
  · refine ⟨Or.inr hstop, ?_⟩
    rw [cutBlocks]
    split
    · rw [Nat.min_eq_right (by omega), take_of_length_le (by omega),
        take_of_length_le (by omega)]
    · rcases Nat.le_total n (s.info.endBlock - addr).toNat with hn | hn
      · rw [Nat.min_eq_left hn]
      · rw [Nat.min_eq_right hn, take_of_length_le (by omega),
          take_of_length_le (by omega)]

theorem rightCut_of_length {n : Nat} (hpos : 0 ≤ addr) (hend : addr < s.info.endBlock)
    (hp : s.At addr p)
    (hcut : cutBlocks s p.offset n ≤ (s.rest p).length ∨ s.info.endBlock ≤ s.info.wrapDst)
    (hlen : min (cutBlocks s p.offset n) (s.rest p).length =
      min n (s.info.endBlock - addr).toNat) : RightCut s addr n := by
  have hrest := length_rest hpos hend hp
  have hle := s.unwrapped
  have hoff := hp.offset_le
  by_cases hn : n ≤ s.info.endBlock - addr
  · exact Or.inl hn
  right
  have hmeant : min n (s.info.endBlock - addr).toNat = (s.info.endBlock - addr).toNat :=
    Nat.min_eq_right (by omega)
  rw [hmeant] at hlen
  by_cases hin : cutBlocks s p.offset n = (s.info.endBlock - addr).toNat
  · left
    rw [cutBlocks] at hin
    split at hin
    next hover =>
      have haddr : p.offset = addr := by omega
      rw [haddr] at hover
      exact ⟨hp.first_run.mp haddr, hover.2⟩
    next => omega
  · right
    have hmore : ¬ cutBlocks s p.offset n ≤ (s.rest p).length := fun hle =>
      hin ((Nat.min_eq_left hle).symm.trans hlen)
    rw [Nat.min_eq_right (Nat.le_of_not_le hmore)] at hlen
    exact ⟨by omega, hcut.resolve_left hmore⟩

end Read

/-- The address that is compared with the end of the store is the one in the run. So what is read is
what is meant, whatever memory there is and whichever method returns the blocks of the runs, exactly
if the request ends in the store; or it begins in the first run, where the two addresses are the
same, and does not overflow; or the runs end with the store and `wrap_dst` ends the loop there. -/
theorem store_read_returns_blocks (s : PlainStore) (content : Storage s.info.blockSize) {addr : Int}
    (hpos : 0 ≤ addr) (hend : addr < s.info.endBlock) {n : Nat}
    (hn : n * s.info.blockSize < 2 ^ 64) (bufLen : Nat) :
    (∀ mmap method, ServesRuns s.info content method 0 →
        ReadsBlocks s content addr n bufLen mmap method) ↔
      RightCut s addr n := by
  obtain ⟨p, hp⟩ := s.exists_at hpos hend
  have hbs := s.blockSize_pos
  constructor
  · intro h
    obtain ⟨fuel, t, hread, ht⟩ := h (fun _ => true) (readsAll content)
      (servesRuns_readsAll s content 0)
    rcases ht with ⟨hsucc, hdata⟩ | ⟨_, _, hfalse⟩
    swap
    · cases hfalse
    have hlength := congrArg List.length hdata
    rw [Storage.length_bytes, ← hp.rest, length_take, Nat.min_eq_left (by
      have := length_rest hpos hend hp
      have := s.unwrapped
      omega)] at hlength
    by_cases hcut : cutBlocks s p.offset n ≤ (s.rest p).length ∨ s.info.endBlock ≤ s.info.wrapDst
    · obtain ⟨fuel', t', hread', ht'⟩ := storeRead_serves (servesRuns_readsAll s content 0) hp hend
        hn (fun _ => true) bufLen hcut
      rcases ht' with ⟨hsucc', hdata'⟩ | ⟨_, _, hfalse⟩
      swap
      · cases hfalse
      have hsame : t = t' := by
        have hmono := storeRead_mono s.info (fun _ => true) (readsAll content) fuel addr
          (n * s.info.blockSize) bufLen (by rw [hread, hsucc]; exact fun h => by cases h) fuel'
        have hmono' := storeRead_mono s.info (fun _ => true) (readsAll content) fuel' addr
          (n * s.info.blockSize) bufLen (by rw [hread', hsucc']; exact fun h => by cases h) fuel
        rw [← hread, ← hread', ← hmono, ← hmono', Nat.add_comm]
      rw [hsame, hdata', Storage.length_bytes, length_take] at hlength
      exact rightCut_of_length hpos hend hp hcut (Nat.eq_of_mul_eq_mul_right hbs hlength)
    · exfalso
      push Not at hcut
      have hone : ¬ (cutBlocks s p.offset n : Int) ≤ p.run.length - p.offset := by
        have hlt := hcut.1
        rw [PlainStore.rest, length_append, length_placesFrom] at hlt
        have := hp.offset_lt
        omega
      rw [storeRead_eq hp hend hn, if_neg hone, if_neg (by simp)] at hread
      have hfinished : (splitRuns s.info (readsAll content) fuel p
          (cutBlocks s p.offset n * s.info.blockSize)).ending ≠ .unfinished := by
        intro hunfinished
        rw [← hread, shortRead, if_neg fun hshort => hshort.1 hunfinished, hunfinished] at hsucc
        cases hsucc
      have hmore := splitRuns_wraps hp hcut.1 hcut.2 hfinished
      rw [← data_shortRead, hread, hlength] at hmore
      have hle : min n (s.info.endBlock - addr).toNat ≤ (s.rest p).length := by
        have := length_rest hpos hend hp
        have := s.unwrapped
        omega
      exact absurd (Nat.mul_le_mul_right s.info.blockSize hle) (Nat.not_le.mpr hmore)
  · intro h mmap method hserves
    obtain ⟨hcut, htake⟩ := h.take_eq hpos hend hp
    obtain ⟨fuel, t, hread, ht⟩ := storeRead_serves hserves hp hend hn mmap bufLen hcut
    refine ⟨fuel, t, hread, ?_⟩
    rw [← hp.rest, ← htake]
    exact ht

/-- Two runs of two blocks of one byte each. -/
def twoRuns : PlainStore where
  info :=
    { cls := .leaf .device
      port := 1
      flags := 0
      blockSize := 1
      runs := [⟨0, 2⟩, ⟨10, 2⟩]
      endBlock := 4
      wrapSrc := 4
      wrapDst := 0
      blocks := 4
      log2BlockSize := 0
      name := none
      misc := [] }
  runs_nonneg := by decide
  wrapSrc_eq := rfl
  unwrapped := le_refl _
  blockSize_eq := rfl
  fits := by decide

/-- Every block has its address in it. -/
def numbered : Storage twoRuns.info.blockSize where
  block := fun _ addr => [UInt8.ofNat addr.toNat]
  length_block := fun _ _ => rfl

theorem store_read_returns_blocks_two :
    ReadsBlocks twoRuns numbered 1 3 0 (fun _ => true) (readsAll numbered) :=
  (store_read_returns_blocks twoRuns numbered (by decide) (by decide) (by decide) 0).mpr
    (Or.inl (by decide)) _ _ (servesRuns_readsAll twoRuns numbered 0)

/-- Four blocks from the second run on: behind its two blocks there are those of the first run. -/
theorem first_run_read_again :
    (storeRead twoRuns.info (fun _ => true) (readsAll numbered) 4 2 4 0).data = [10, 11, 0, 1] ∧
      ServesRuns twoRuns.info numbered (readsAll numbered) 0 ∧
        ¬ ReadsBlocks twoRuns numbered 2 4 0 (fun _ => true) (readsAll numbered) := by
  have hread : storeRead twoRuns.info (fun _ => true) (readsAll numbered) 4 2 4 0 =
      ⟨[⟨10, 1, 0, 2⟩, ⟨0, 0, 2, 2⟩], [[10, 11], [0, 1]], .success⟩ := by
    decide
  refine ⟨by rw [hread]; rfl, servesRuns_readsAll twoRuns numbered 0, ?_⟩
  rintro ⟨fuel, t, rfl, h⟩
  rcases h with ⟨hsucc, hdata⟩ | ⟨_, _, hfalse⟩
  · have hmono := storeRead_mono twoRuns.info (fun _ => true) (readsAll numbered) fuel 2 4 0
      (by
        intro hunfinished
        cases hsucc.symm.trans hunfinished) 4
    have hmono' := storeRead_mono twoRuns.info (fun _ => true) (readsAll numbered) 4 2 4 0
      (by
        rw [hread]
        exact fun h => by cases h) fuel
    rw [Nat.add_comm, hmono', hread] at hmono
    change (storeRead twoRuns.info (fun _ => true) (readsAll numbered) fuel 2 4 0).data = _ at hdata
    rw [← hmono] at hdata
    revert hdata
    decide
  · cases hfalse

end Hurd.Libstore
