import Mathlib.Algebra.Order.Ring.Nat
import Mathlib.Algebra.Order.BigOperators.Group.Finset
import Hurd.Framework.Count
import Hurd.Framework.Run

/-!
# Pokes

`ext2fs/pokel.c`: which parts of the disk cache have been modified and are still to be written. Each
call of `pokel_add` hands in a reference to every block of its range. A poke keeps one reference to
each of its blocks, and what is too much is given back.

The block size is the page size. `_pokel_exec` gives up the lock while it works, and is a step that
takes the pokes, one for each poke, and one that gives the records back.
-/

namespace Hurd.Ext2fs

open List Option

structure Poke where
  offset : Nat
  length : Nat
  deriving DecidableEq, Repr

def Poke.stop (pl : Poke) : Nat := pl.offset + pl.length

structure Pokel where
  pokes : List Poke
  freePokes : List Poke
  pager : Nat
  image : Nat
  deriving DecidableEq

def pokelInit (pager image : Nat) : Pokel := ⟨[], [], pager, image⟩

/-- `pokel->pokes = NULL` -/
def Pokel.clear (pokel : Pokel) : Pokel := { pokel with pokes := [] }

/-- `last->next = pokes`, where `last` is the last poke of the pokel. -/
def Pokel.append (pokel : Pokel) (pokes : List Poke) : Pokel :=
  { pokel with pokes := pokel.pokes ++ pokes }

/-- `last->next = pokel->free_pokes`, where `last` is the last of `pokes`. -/
def Pokel.recycle (pokel : Pokel) (pokes : List Poke) : Pokel :=
  { pokel with freePokes := pokes ++ pokel.freePokes }

/-- The size of a block and of a page, and where the disk cache is. -/
structure PokeConfig where
  blockSize : Nat
  blockSize_pos : 0 < blockSize
  diskCache : Nat

namespace PokeConfig

variable (z : PokeConfig)

/-- `trunc_page` and `trunc_block` -/
def trunc (n : Nat) : Nat := n / z.blockSize * z.blockSize

/-- `round_page` and `round_block` -/
def round (n : Nat) : Nat := (n + z.blockSize - 1) / z.blockSize * z.blockSize

/-- The blocks of `for (i = begin; i < end; i += block_size)`. -/
def blocksBelow (start stop : Nat) : List Nat :=
  (List.range ((stop - start + z.blockSize - 1) / z.blockSize)).map fun k =>
    (start + k * z.blockSize) / z.blockSize

/-- The blocks of `for (i = begin; i != end; i += block_size)`, if that ends. -/
def blocksUntil (start stop : Nat) : Option (List Nat) :=
  if start ≤ stop ∧ z.blockSize ∣ stop - start then some (z.blocksBelow start stop) else none

/-- The loop of `pokel_add`: the pokes afterwards, and the blocks that are dereferenced. -/
def addLoop (offset stop : Nat) : List Poke → Option (List Poke × List Nat)
  | [] => none
  | pl :: rest =>
      if pl.offset ≤ offset ∧ stop ≤ pl.stop then some (pl :: rest, z.blocksBelow offset stop)
      else if offset ≤ pl.stop ∧ pl.offset ≤ stop then
        let first := if offset < pl.offset then offset else pl.offset
        let last := if pl.stop < stop then stop else pl.stop
        let iBegin := if offset < pl.offset then pl.offset else offset
        let iEnd := if pl.stop < stop then pl.stop else stop
        some (⟨first, last - first⟩ :: rest, z.blocksBelow iBegin iEnd)
      else (addLoop offset stop rest).map fun (pokes, blocks) => (pl :: pokes, blocks)

/-- `pokel_add`, without the references. -/
def pokelAdd (pokel : Pokel) (offset stop : Nat) : Pokel × List Nat :=
  match z.addLoop offset stop pokel.pokes with
  | some (pokes, blocks) => ({ pokel with pokes := pokes }, blocks)
  | none =>
      ({ pokel with
          pokes := ⟨offset, stop - offset⟩ :: pokel.pokes
          freePokes := pokel.freePokes.tail }, [])

end PokeConfig

/-- A call of `_pokel_exec` that has taken the pokes of a pokel: those it is through with, and those it
still has to sync (or to drop, where `sync` is false). -/
structure PokelExec (ι : Type*) where
  pokel : ι
  sync : Bool
  done : List Poke
  todo : List Poke

/-- The pokels and the calls of `_pokel_exec`. The other fields are history variables: the references
that have been handed in and given back for each block, and the byte ranges that have been added to
each pokel since its pokes were taken. -/
structure Pokels (ι : Type*) where
  pokel : ι → Pokel
  execs : List (PokelExec ι)
  given : Nat → Nat
  released : Nat → Nat
  added : ι → List (Nat × Nat)

inductive PokelEvent (ι : Type*) where
  /-- `pokel_add`, for a place that is `loc` behind the start of the image. -/
  | add (k : ι) (loc length : Nat)
  /-- `pokel_sync` or `pokel_flush` takes the pokes. -/
  | exec (k : ι) (sync : Bool)
  /-- The call at index `j` of `execs` goes on with its next poke. -/
  | poke (j : Nat)
  /-- The call at index `j` returns. -/
  | finish (j : Nat)
  | inherit (k source : ι)

namespace Pokels

open Function

variable {ι : Type*} [DecidableEq ι] (z : PokeConfig)

/-- The references in `counts`, with one more for each of `blocks`. -/
def count (counts : Nat → Nat) (blocks : List Nat) (n : Nat) : Nat := counts n + blocks.count n

/-- `if (pokel->image == disk_cache)` -/
def cached (pokel : Pokel) (blocks : List Nat) : List Nat :=
  if pokel.image = z.diskCache then blocks else []

def step (s : Pokels ι) : PokelEvent ι → Option (Pokels ι)
  | .add k loc length =>
      let offset := z.trunc loc
      let stop := z.round (loc + length)
      let r := z.pokelAdd (s.pokel k) offset stop
      some { s with
        pokel := update s.pokel k r.1
        given := count s.given (cached z (s.pokel k) (z.blocksBelow offset stop))
        released := count s.released (cached z (s.pokel k) r.2)
        added := update s.added k ((loc, length) :: s.added k) }
  | .exec k sync =>
      some { s with
        pokel := update s.pokel k (s.pokel k).clear
        execs := s.execs ++ [⟨k, sync, [], (s.pokel k).pokes⟩]
        added := update s.added k [] }
  | .poke j =>
      match s.execs[j]? with
      | some ⟨k, sync, done, pl :: rest⟩ =>
          (z.blocksUntil (z.trunc pl.offset) (z.round pl.stop)).map fun blocks =>
            { s with
              execs := s.execs.set j ⟨k, sync, done ++ [pl], rest⟩
              released := count s.released (cached z (s.pokel k) blocks) }
      | _ => none
  | .finish j =>
      match s.execs[j]? with
      | some ⟨k, _, done, []⟩ =>
          some { s with
            pokel := update s.pokel k ((s.pokel k).recycle done)
            execs := s.execs.eraseIdx j }
      | _ => none
  | .inherit k source =>
      if (s.pokel k).pager = (s.pokel source).pager ∧
          (s.pokel k).image = (s.pokel source).image then
        let pokel := update s.pokel source (s.pokel source).clear
        let added := update s.added source []
        some { s with
          pokel := update pokel k ((pokel k).append (s.pokel source).pokes)
          added := update added k (added k ++ s.added source) }
      else none

def init (pager image : ι → Nat) : Pokels ι where
  pokel k := pokelInit (pager k) (image k)
  execs := []
  given _ := 0
  released _ := 0
  added _ := []

end Pokels

namespace PokeConfig

variable {z : PokeConfig} {start stop offset n : Nat} {pokes pokes' : List Poke} {blocks : List Nat}

/-- The poke is made of whole blocks. -/
def Aligned (z : PokeConfig) (pl : Poke) : Prop := z.blockSize ∣ pl.offset ∧ z.blockSize ∣ pl.stop

/-- The block is a part of the poke. -/
def covers (z : PokeConfig) (n : Nat) (pl : Poke) : Bool :=
  decide (pl.offset ≤ n * z.blockSize ∧ n * z.blockSize < pl.stop)

theorem count_blocksBelow (hstart : z.blockSize ∣ start) : (z.blocksBelow start stop).count n =
    if start ≤ n * z.blockSize ∧ n * z.blockSize < stop then 1 else 0 := by
  have hpos := z.blockSize_pos
  obtain ⟨a, rfl⟩ := hstart
  have hmap : z.blocksBelow (z.blockSize * a) stop =
      (List.range ((stop - z.blockSize * a + z.blockSize - 1) / z.blockSize)).map (a + ·) := by
    rw [blocksBelow]
    congr 1
    funext k
    rw [Nat.mul_comm k, ← Nat.mul_add, Nat.mul_div_cancel_left _ hpos]
  have hnodup : (z.blocksBelow (z.blockSize * a) stop).Nodup := by
    rw [hmap]
    exact List.nodup_range.map (add_right_injective a)
  rw [hnodup.count, hmap]
  congr 1
  rw [List.mem_map, Nat.mul_comm n, Nat.mul_le_mul_left_iff hpos, eq_iff_iff]
  have hlt : ∀ k, k < (stop - z.blockSize * a + z.blockSize - 1) / z.blockSize ↔
      z.blockSize * (a + k) < stop := by
    intro k
    rw [Nat.lt_div_iff_mul_lt hpos, Nat.mul_add, Nat.mul_comm k]
    omega
  constructor
  · rintro ⟨k, hk, rfl⟩
    exact ⟨Nat.le_add_right a k, (hlt k).mp (List.mem_range.mp hk)⟩
  · rintro ⟨hle, hn⟩
    obtain ⟨k, rfl⟩ := Nat.exists_eq_add_of_le hle
    exact ⟨k, List.mem_range.mpr ((hlt k).mpr hn), rfl⟩

theorem trunc_le : z.trunc n ≤ n := Nat.div_mul_le_self n z.blockSize

theorem le_round : n ≤ z.round n := by
  have hpos := z.blockSize_pos
  have hlt := Nat.lt_div_mul_add hpos (a := n + z.blockSize - 1)
  rw [round]
  omega

theorem dvd_trunc : z.blockSize ∣ z.trunc n := Nat.dvd_mul_left z.blockSize _

theorem dvd_round : z.blockSize ∣ z.round n := Nat.dvd_mul_left z.blockSize _

theorem trunc_eq (h : z.blockSize ∣ n) : z.trunc n = n := Nat.div_mul_cancel h

theorem round_eq (h : z.blockSize ∣ n) : z.round n = n := by
  have hpos := z.blockSize_pos
  obtain ⟨a, rfl⟩ := h
  rw [round, Nat.add_sub_assoc hpos, Nat.mul_add_div hpos, Nat.div_eq_of_lt (by omega),
    Nat.add_zero, Nat.mul_comm]

/-- What an addition does to the pokes: no block is lost, the range lies in a poke, and `blocks` makes
up for the blocks that have become part of a poke twice. -/
structure Adds (z : PokeConfig) (offset stop : Nat) (pokes pokes' : List Poke)
    (blocks : List Nat) : Prop where
  aligned : ∀ pl ∈ pokes', z.Aligned pl
  kept : ∀ pl ∈ pokes, ∃ pl' ∈ pokes', pl'.offset ≤ pl.offset ∧ pl.stop ≤ pl'.stop
  added : ∃ pl ∈ pokes', pl.offset ≤ offset ∧ stop ≤ pl.stop
  counts : ∀ n, pokes'.countP (z.covers n) + blocks.count n =
    pokes.countP (z.covers n) + (z.blocksBelow offset stop).count n

theorem Adds.cons (h : Adds z offset stop pokes pokes' blocks) {pl : Poke} (hpl : z.Aligned pl) :
    Adds z offset stop (pl :: pokes) (pl :: pokes') blocks where
  aligned := forall_mem_cons.mpr ⟨hpl, h.aligned⟩
  kept := by
    intro pl' hpl'
    rcases mem_cons.mp hpl' with rfl | hmem
    · exact ⟨pl', mem_cons_self, le_rfl, le_rfl⟩
    · obtain ⟨q, hq, hle⟩ := h.kept pl' hmem
      exact ⟨q, mem_cons_of_mem pl hq, hle⟩
  added := by
    obtain ⟨q, hq, hle⟩ := h.added
    exact ⟨q, mem_cons_of_mem pl hq, hle⟩
  counts n := by
    have hn := h.counts n
    rw [countP_cons, countP_cons]
    omega

theorem Adds.grow {pl pl' : Poke} (hal : ∀ q ∈ pokes, z.Aligned q) (hpl' : z.Aligned pl')
    (hkept : pl'.offset ≤ pl.offset ∧ pl.stop ≤ pl'.stop)
    (hadded : pl'.offset ≤ offset ∧ stop ≤ pl'.stop)
    (hcounts : ∀ n, (if z.covers n pl' = true then 1 else 0) + blocks.count n =
      (if z.covers n pl = true then 1 else 0) + (z.blocksBelow offset stop).count n) :
    Adds z offset stop (pl :: pokes) (pl' :: pokes) blocks where
  aligned := forall_mem_cons.mpr ⟨hpl', hal⟩
  kept := by
    intro q hq
    rcases mem_cons.mp hq with rfl | hmem
    · exact ⟨pl', mem_cons_self, hkept⟩
    · exact ⟨q, mem_cons_of_mem pl' hmem, le_rfl, le_rfl⟩
  added := ⟨pl', mem_cons_self, hadded⟩
  counts n := by
    have hn := hcounts n
    rw [countP_cons, countP_cons]
    omega

theorem addLoop_adds (h : z.addLoop offset stop pokes = some (pokes', blocks))
    (hal : ∀ pl ∈ pokes, z.Aligned pl) (hoffset : z.blockSize ∣ offset)
    (hstop : z.blockSize ∣ stop) (hle : offset ≤ stop) :
    Adds z offset stop pokes pokes' blocks := by
  induction pokes generalizing pokes' with
  | nil => cases h
  | cons pl rest ih =>
    obtain ⟨hpl, hrest⟩ := forall_mem_cons.mp hal
    have hpos : pl.offset ≤ pl.stop := Nat.le_add_right _ _
    simp only [addLoop] at h
    split at h
    · rename_i hin
      cases h
      exact .grow hrest hpl ⟨le_rfl, le_rfl⟩ hin fun n => rfl
    · split at h
      · rename_i hmeets
        cases h
        have hsum : ∀ a b, a ≤ b → Poke.stop ⟨a, b - a⟩ = b := fun a b hab =>
          Nat.add_sub_cancel' hab
        have hfirst : z.blockSize ∣ if offset < pl.offset then offset else pl.offset := by
          split_ifs
          · exact hoffset
          · exact hpl.1
        have hbegin : z.blockSize ∣ if offset < pl.offset then pl.offset else offset := by
          split_ifs
          · exact hpl.1
          · exact hoffset
        have hlast : z.blockSize ∣ if pl.stop < stop then stop else pl.stop := by
          split_ifs
          · exact hstop
          · exact hpl.2
        have hends : (if offset < pl.offset then offset else pl.offset) ≤
            if pl.stop < stop then stop else pl.stop := by
          split_ifs <;> omega
        refine .grow hrest ⟨hfirst, ?_⟩ ?_ ?_ fun n => ?_
        · rw [hsum _ _ hends]
          exact hlast
        · rw [hsum _ _ hends]
          dsimp only
          split_ifs <;> omega
        · rw [hsum _ _ hends]
          dsimp only
          split_ifs <;> omega
        · rw [count_blocksBelow hbegin, count_blocksBelow hoffset]
          simp only [covers, hsum _ _ hends, decide_eq_true_eq]
          generalize n * z.blockSize = x
          split_ifs <;> omega
      · obtain ⟨⟨rest', blocks'⟩, hrec, heq⟩ := map_eq_some_iff.mp h
        cases heq
        exact (ih hrec hrest).cons hpl

theorem pokelAdd_adds {pokel : Pokel} (hal : ∀ pl ∈ pokel.pokes, z.Aligned pl)
    (hoffset : z.blockSize ∣ offset) (hstop : z.blockSize ∣ stop) (hle : offset ≤ stop) :
    Adds z offset stop pokel.pokes (z.pokelAdd pokel offset stop).1.pokes
      (z.pokelAdd pokel offset stop).2 := by
  rw [pokelAdd]
  cases hloop : z.addLoop offset stop pokel.pokes with
  | some r => exact addLoop_adds hloop hal hoffset hstop hle
  | none =>
    have hends : Poke.stop ⟨offset, stop - offset⟩ = stop := Nat.add_sub_cancel' hle
    have hnew : z.Aligned ⟨offset, stop - offset⟩ := ⟨hoffset, by rwa [hends]⟩
    refine ⟨forall_mem_cons.mpr ⟨hnew, hal⟩, fun pl hpl => ?_, ?_, fun n => ?_⟩
    · exact ⟨pl, mem_cons_of_mem _ hpl, le_rfl, le_rfl⟩
    · exact ⟨_, mem_cons_self, le_rfl, hends.ge⟩
    · simp only [countP_cons, covers, hends, decide_eq_true_eq, count_blocksBelow hoffset,
        count_nil]
      omega

theorem image_pokelAdd (pokel : Pokel) (offset stop : Nat) :
    (z.pokelAdd pokel offset stop).1.image = pokel.image := by
  rw [pokelAdd]
  split <;> rfl

end PokeConfig

namespace Pokels

open Function PokeConfig

/-- The references that pokes of a pokel with this image keep to a block. -/
def held (z : PokeConfig) (n image : Nat) (pokes : List Poke) : Nat :=
  if image = z.diskCache then pokes.countP (z.covers n) else 0

theorem count_cached {z : PokeConfig} (pokel : Pokel) (blocks : List Nat) (n : Nat) :
    (cached z pokel blocks).count n = if pokel.image = z.diskCache then blocks.count n else 0 := by
  unfold cached
  split <;> rfl

/-- The references of the pokes that calls of `_pokel_exec` have taken and still have to sync. -/
def taken {ι : Type*} (z : PokeConfig) (pokel : ι → Pokel) (execs : List (PokelExec ι))
    (n : Nat) : Nat :=
  (execs.map fun e => held z n (pokel e.pokel).image e.todo).sum

theorem taken_split {ι : Type*} {z : PokeConfig} {n : Nat} {execs : List (PokelExec ι)}
    (pokel : ι → Pokel) (pre post) (e : PokelExec ι) (h : execs = pre ++ e :: post) :
    taken z pokel execs n =
      taken z pokel (pre ++ post) n + held z n (pokel e.pokel).image e.todo := by
  simp only [h, taken, map_append, map_cons, sum_append, sum_cons]
  omega

variable {ι : Type*} [Fintype ι] [DecidableEq ι] {z : PokeConfig} {s t : Pokels ι} {n : Nat}

/-- The references of the pending pokes. -/
def pending (z : PokeConfig) (pokel : ι → Pokel) (n : Nat) : Nat :=
  ∑ k, held z n (pokel k).image (pokel k).pokes

/-- Every reference that has been handed in and not been given back belongs to a poke, and what has
been added lies in one. -/
structure Ok (z : PokeConfig) (s : Pokels ι) : Prop where
  pokes : ∀ k, ∀ pl ∈ (s.pokel k).pokes, z.Aligned pl
  todo : ∀ e ∈ s.execs, ∀ pl ∈ e.todo, z.Aligned pl
  balance : ∀ n, s.given n = s.released n + pending z s.pokel n + taken z s.pokel s.execs n
  added : ∀ k, ∀ r ∈ s.added k,
    ∃ pl ∈ (s.pokel k).pokes, pl.offset ≤ r.1 ∧ r.1 + r.2 ≤ pl.stop

section Update

variable {pokel : ι → Pokel} {k : ι} {p : Pokel}

theorem pending_update (pokel : ι → Pokel) :
    pending z (update pokel k p) n + held z n (pokel k).image (pokel k).pokes =
    pending z pokel n + held z n p.image p.pokes :=
  sum_update Finset.univ (fun p : Pokel => held z n p.image p.pokes) pokel (Finset.mem_univ k) p

omit [Fintype ι] in
theorem aligned_update (hp : ∀ pl ∈ p.pokes, z.Aligned pl)
    (h : ∀ i, ∀ pl ∈ (pokel i).pokes, z.Aligned pl) (i : ι) :
    ∀ pl ∈ (update pokel k p i).pokes, z.Aligned pl := by
  by_cases hi : i = k
  · rwa [hi, update_self]
  · rw [update_of_ne hi]
    exact h i

omit [Fintype ι] in
theorem taken_update (hp : p.image = (pokel k).image) (execs : List (PokelExec ι)) :
    taken z (update pokel k p) execs n = taken z pokel execs n := by
  have himage : ∀ i, (update pokel k p i).image = (pokel i).image := by
    intro i
    by_cases hi : i = k
    · rw [hi, update_self, hp]
    · rw [update_of_ne hi]
  simp only [taken, himage]

end Update

omit [DecidableEq ι] in
theorem init_ok (pager image : ι → Nat) : Ok z (init pager image) where
  pokes _ _ hpl := absurd hpl not_mem_nil
  todo _ he := absurd he not_mem_nil
  balance n := by
    have hzero : ∀ k, held z n (image k) [] = 0 := fun k => ite_self 0
    simp [init, pokelInit, pending, taken, hzero]
  added _ _ hr := absurd hr not_mem_nil

theorem Ok.add (h : Ok z s) {k : ι} {loc length : Nat} (ht : s.step z (.add k loc length) = some t) :
    Ok z t := by
  simp only [step, Option.some.injEq] at ht
  subst ht
  have hle : z.trunc loc ≤ z.round (loc + length) :=
    trunc_le.trans ((Nat.le_add_right loc length).trans le_round)
  have hadds := pokelAdd_adds (h.pokes k) dvd_trunc dvd_round hle
  have himage := image_pokelAdd (z := z) (s.pokel k) (z.trunc loc) (z.round (loc + length))
  generalize z.pokelAdd (s.pokel k) (z.trunc loc) (z.round (loc + length)) = new at *
  refine ⟨aligned_update hadds.aligned h.pokes, h.todo, fun n => ?_, fun i r hr => ?_⟩
  · have hpending := pending_update (z := z) (n := n) (k := k) (p := new.1) s.pokel
    have hbalance := h.balance n
    have hcounts := hadds.counts n
    simp only [count, count_cached, taken_update himage]
    rw [himage] at hpending
    unfold held at hpending
    split_ifs at hpending ⊢ <;> omega
  · by_cases hi : i = k
    · subst hi
      simp only [update_self] at hr ⊢
      rcases mem_cons.mp hr with rfl | hr
      · obtain ⟨pl, hpl, hlow, hhigh⟩ := hadds.added
        exact ⟨pl, hpl, hlow.trans trunc_le, le_round.trans hhigh⟩
      · obtain ⟨pl, hpl, hlow, hhigh⟩ := h.added i r hr
        obtain ⟨pl', hpl', hlow', hhigh'⟩ := hadds.kept pl hpl
        exact ⟨pl', hpl', hlow'.trans hlow, hhigh.trans hhigh'⟩
    · simp only [update_of_ne hi] at hr ⊢
      exact h.added i r hr

theorem Ok.exec (h : Ok z s) {k : ι} {sync : Bool} (ht : s.step z (.exec k sync) = some t) :
    Ok z t := by
  simp only [step, Option.some.injEq] at ht
  subst ht
  have hnone : ∀ pl ∈ (s.pokel k).clear.pokes, z.Aligned pl := fun _ hpl =>
    absurd hpl not_mem_nil
  refine ⟨aligned_update hnone h.pokes, ?_, fun n => ?_, fun i r hr => ?_⟩
  · intro e he
    rcases mem_append.mp he with he | he
    · exact h.todo e he
    · obtain rfl := mem_singleton.mp he
      exact h.pokes k
  · have hpending := pending_update (z := z) (n := n) (k := k) (p := (s.pokel k).clear) s.pokel
    have hempty : held z n (s.pokel k).clear.image (s.pokel k).clear.pokes = 0 := ite_self 0
    have hbalance := h.balance n
    have hclear : (s.pokel k).clear.image = (s.pokel k).image := rfl
    simp only [taken_update hclear]
    simp only [taken, map_append, sum_append, map_singleton, sum_singleton]
      at hbalance ⊢
    omega
  · by_cases hi : i = k
    · subst hi
      simp at hr
    · simp only [update_of_ne hi] at hr ⊢
      exact h.added i r hr

theorem blocksUntil_eq {pl : Poke} (hpl : z.Aligned pl) :
    z.blocksUntil (z.trunc pl.offset) (z.round pl.stop) = some (z.blocksBelow pl.offset pl.stop) := by
  rw [trunc_eq hpl.1, round_eq hpl.2, blocksUntil]
  exact if_pos ⟨Nat.le_add_right _ _, Nat.dvd_sub hpl.2 hpl.1⟩

theorem Ok.poke (h : Ok z s) {j : Nat} (ht : s.step z (.poke j) = some t) : Ok z t := by
  simp only [step] at ht
  split at ht
  · rename_i k sync done pl rest hj
    have hmem := mem_of_getElem? hj
    obtain ⟨hpl, hrest⟩ := forall_mem_cons.mp (h.todo _ hmem)
    rw [blocksUntil_eq hpl, map_some, Option.some.injEq] at ht
    subst ht
    have hlt := (List.getElem?_eq_some_iff.mp hj).1
    have hset := set_eq_take_append_cons_drop (l := s.execs) (i := j)
      (a := ⟨k, sync, done ++ [pl], rest⟩)
    rw [if_pos hlt] at hset
    refine ⟨h.pokes, fun e he => ?_, fun n => ?_, h.added⟩
    · rcases mem_or_eq_of_mem_set he with he | rfl
      · exact h.todo e he
      · exact hrest
    · have hold := taken_split (z := z) (n := n) s.pokel (s.execs.take j)
        (s.execs.drop (j + 1)) ⟨k, sync, done, pl :: rest⟩ (by
          rw [← (List.getElem?_eq_some_iff.mp hj).2, cons_getElem_drop_succ,
            take_append_drop])
      have hnew := taken_split (z := z) (n := n) s.pokel _ _ _ hset
      have hbalance := h.balance n
      simp only [count, count_cached, count_blocksBelow hpl.1]
      simp only [held, countP_cons, covers, decide_eq_true_eq] at hold hnew
      split_ifs at hold hnew ⊢ <;> omega
  · cases ht

theorem Ok.finish (h : Ok z s) {j : Nat} (ht : s.step z (.finish j) = some t) : Ok z t := by
  simp only [step] at ht
  split at ht
  · rename_i k sync done hj
    simp only [Option.some.injEq] at ht
    subst ht
    have hpokes : ∀ i, (update s.pokel k ((s.pokel k).recycle done) i).pokes =
        (s.pokel i).pokes := by
      intro i
      by_cases hi : i = k
      · rw [hi, update_self, Pokel.recycle]
      · rw [update_of_ne hi]
    refine ⟨fun i => ?_, fun e he => h.todo e (mem_of_mem_eraseIdx he), fun n => ?_,
      fun i => ?_⟩
    · simp only [hpokes]
      exact h.pokes i
    · have hpending := pending_update (z := z) (n := n) (k := k)
        (p := (s.pokel k).recycle done) s.pokel
      have hold := taken_split (z := z) (n := n) s.pokel (s.execs.take j)
        (s.execs.drop (j + 1)) ⟨k, sync, done, []⟩ (by
          rw [← (List.getElem?_eq_some_iff.mp hj).2, cons_getElem_drop_succ,
            take_append_drop])
      have hempty : held z n (s.pokel k).image [] = 0 := ite_self 0
      have hbalance := h.balance n
      have hrecycle : ((s.pokel k).recycle done).image = (s.pokel k).image := rfl
      have hsame : ((s.pokel k).recycle done).pokes = (s.pokel k).pokes := rfl
      simp only [taken_update hrecycle, eraseIdx_eq_take_drop_succ]
      rw [hrecycle, hsame] at hpending
      simp only at hold
      omega
    · simp only [hpokes]
      exact h.added i
  · cases ht

theorem Ok.inherit (h : Ok z s) {k source : ι} (ht : s.step z (.inherit k source) = some t) :
    Ok z t := by
  obtain ⟨⟨-, himage⟩, ht⟩ := ite_none_right_eq_some.mp ht
  simp only [Option.some.injEq] at ht
  subst ht
  by_cases hk : k = source
  · -- the pokel gets back what was taken from it
    subst hk
    have hsame : (s.pokel k).clear.append (s.pokel k).pokes = s.pokel k := rfl
    simp only [update_self, update_idem, hsame, update_eq_self, nil_append]
    exact h
  · simp only [update_of_ne hk]
    have hnone : ∀ pl ∈ (s.pokel source).clear.pokes, z.Aligned pl := fun _ hpl =>
      absurd hpl not_mem_nil
    have hall : ∀ pl ∈ ((s.pokel k).append (s.pokel source).pokes).pokes, z.Aligned pl :=
      fun pl hpl => (mem_append.mp hpl).elim (h.pokes k pl) (h.pokes source pl)
    refine ⟨aligned_update hall (aligned_update hnone h.pokes), h.todo, fun n => ?_,
      fun i r hr => ?_⟩
    · have hcleared := pending_update (z := z) (n := n) (k := source)
        (p := (s.pokel source).clear) s.pokel
      have happended := pending_update (z := z) (n := n) (k := k)
        (p := (s.pokel k).append (s.pokel source).pokes)
        (update s.pokel source (s.pokel source).clear)
      rw [update_of_ne hk] at happended
      have hempty : held z n (s.pokel source).clear.image (s.pokel source).clear.pokes = 0 :=
        ite_self 0
      have hboth : held z n ((s.pokel k).append (s.pokel source).pokes).image
          ((s.pokel k).append (s.pokel source).pokes).pokes =
          held z n (s.pokel k).image (s.pokel k).pokes +
            held z n (s.pokel source).image (s.pokel source).pokes := by
        rw [← himage]
        simp only [held, Pokel.append, countP_append]
        split_ifs <;> omega
      have hbalance := h.balance n
      have hsource : (s.pokel source).clear.image = (s.pokel source).image := rfl
      have hnew : ((s.pokel k).append (s.pokel source).pokes).image =
          (update s.pokel source (s.pokel source).clear k).image := by
        rw [update_of_ne hk, Pokel.append]
      simp only [taken_update hnew, taken_update hsource]
      omega
    · by_cases hi : i = k
      · subst hi
        simp only [update_self] at hr ⊢
        rcases mem_append.mp hr with hr | hr
        · obtain ⟨pl, hpl, hle⟩ := h.added i r hr
          exact ⟨pl, mem_append_left _ hpl, hle⟩
        · obtain ⟨pl, hpl, hle⟩ := h.added source r hr
          exact ⟨pl, mem_append_right _ hpl, hle⟩
      · simp only [update_of_ne hi] at hr ⊢
        by_cases hs : i = source
        · subst hs
          simp at hr
        · simp only [update_of_ne hs] at hr ⊢
          exact h.added i r hr

theorem Ok.step (h : Ok z s) {e : PokelEvent ι} (ht : s.step z e = some t) : Ok z t := by
  cases e with
  | add k loc length => exact h.add ht
  | exec k sync => exact h.exec ht
  | poke j => exact h.poke ht
  | finish j => exact h.finish ht
  | inherit k source => exact h.inherit ht

omit [DecidableEq ι] in
theorem Ok.released_lt (h : Ok z s) {k : ι} {pl : Poke}
    (hpl : pl ∈ (s.pokel k).pokes ∨ ∃ e ∈ s.execs, e.pokel = k ∧ pl ∈ e.todo)
    (himage : (s.pokel k).image = z.diskCache) (hn : z.covers n pl = true) :
    s.released n < s.given n := by
  have hheld : ∀ pokes, pl ∈ pokes → 0 < held z n (s.pokel k).image pokes := by
    intro pokes hmem
    rw [held, if_pos himage]
    exact countP_pos_iff.mpr ⟨pl, hmem, hn⟩
  have hbalance := h.balance n
  rcases hpl with hpl | ⟨e, he, rfl, hpl⟩
  · have hle : held z n (s.pokel k).image (s.pokel k).pokes ≤ pending z s.pokel n :=
      Finset.single_le_sum (f := fun k => held z n (s.pokel k).image (s.pokel k).pokes)
        (fun _ _ => Nat.zero_le _) (Finset.mem_univ k)
    have hpos := hheld _ hpl
    omega
  · obtain ⟨pre, post, hsplit⟩ := append_of_mem he
    have htaken := taken_split (z := z) (n := n) s.pokel pre post e hsplit
    have hpos := hheld _ hpl
    omega

end Pokels

open Pokels in
/-- What has been added to a pokel lies in one of its pokes until those are taken. The references that
have not been given back are those of the pokes: one for each poke and block, so that a block under a
poke keeps a reference until the poke has been synced or dropped, which always comes to its end. -/
theorem pokels_account {ι : Type*} [Fintype ι] [DecidableEq ι] (z : PokeConfig)
    (pager image : ι → Nat) {s : Pokels ι}
    (h : Reach (Pokels.step z) (fun _ _ => True) (Pokels.init pager image) s) :
    (∀ k, ∀ r ∈ s.added k, ∃ pl ∈ (s.pokel k).pokes, pl.offset ≤ r.1 ∧ r.1 + r.2 ≤ pl.stop) ∧
      (∀ n, s.given n = s.released n + pending z s.pokel n + taken z s.pokel s.execs n) ∧
      (∀ k pl n, pl ∈ (s.pokel k).pokes ∨ (∃ e ∈ s.execs, e.pokel = k ∧ pl ∈ e.todo) →
        (s.pokel k).image = z.diskCache → z.covers n pl = true → s.released n < s.given n) ∧
      ∀ j e, s.execs[j]? = some e → (e.todo ≠ [] → (s.step z (.poke j)).isSome = true) ∧
        (e.todo = [] → (s.step z (.finish j)).isSome = true) := by
  have hok : Ok z s := h.invariant (Ok z) (init_ok pager image) fun _ _ _ hs _ ht => hs.step ht
  refine ⟨hok.added, hok.balance, fun k pl n => hok.released_lt, fun j e hj => ?_⟩
  obtain ⟨k, sync, done, todo⟩ := e
  cases todo with
  | nil => simp [Pokels.step, hj]
  | cons pl rest =>
    have hpl := hok.todo _ (mem_of_getElem? hj) pl mem_cons_self
    simp [Pokels.step, hj, blocksUntil_eq hpl]

def pagePokes : PokeConfig := ⟨4096, Nat.succ_pos 4095, 9⟩

theorem pokels_account_sync : ∃ s : Pokels (Fin 2),
    Reach (Pokels.step pagePokes) (fun _ _ => True) (Pokels.init 0 fun _ => 9) s ∧
      s.given 1 = 2 ∧ s.released 1 = 2 := by
  let calls : List (PokelEvent (Fin 2)) :=
    [.add 0 0 4096, .add 0 4096 4096, .add 0 100 5000, .inherit 1 0, .exec 1 true, .poke 0, .finish 0]
  obtain ⟨s, hs, hgiven, hrest⟩ : ∃ s,
      runLabels (Pokels.step pagePokes) (Pokels.init 0 fun _ => 9) calls = some s ∧
        s.given 1 = 2 ∧
        Pokels.pending pagePokes s.pokel 1 + Pokels.taken pagePokes s.pokel s.execs 1 = 0 :=
    exists_run calls _ (by decide)
  have hreach := Reach.labels calls .start (admitsLabels_of_forall (fun _ _ => trivial) _ _) hs
  have hbalance := (pokels_account pagePokes 0 (fun _ => 9) hreach).2.1 1
  exact ⟨s, hreach, hgiven, by omega⟩

end Hurd.Ext2fs
