import Hurd.Framework.SlotCache
import Hurd.Libdiskfs.NameCache

/-!
# The name cache agrees with the directories

The strings and pointers of the cache are first taken away: what remains is the entry of each slot.
Each function of the cache changes the entries in one of the ways that keep them in agreement with
the directories.
-/

namespace Hurd.NameCache

open List Option

variable {hash : Nat → Name → Nat} {c : Cache} {p q : Position} {key d v : Nat} {x : Name}

theorem charp_add_one (h : frequ v < 3) : charp (v + 1) = charp v := by
  unfold frequ at h
  unfold charp
  omega

theorem charp_of_aligned (h : v % 4 = 0) : charp v = v := by
  unfold charp
  omega

/-- The directory, the name and the node of a slot, if it is in use. -/
def Cache.entryAt (c : Cache) (p : Position) : Option ((Nat × Name) × Nat) :=
  if (c.slot p).name = 0 then none
  else (c.heap (charp (c.slot p).name)).map fun x =>
    (((c.slot p).dirCacheId, x), (c.slot p).nodeCacheId)

/-- Each slot in use has a string of its own, the key of its entry, and is in the bucket of it. -/
structure Cache.WF (hash : Nat → Name → Nat) (c : Cache) : Prop where
  entry : ∀ p, (c.slot p).name ≠ 0 → ∃ x, c.heap (charp (c.slot p).name) = some x ∧
    (c.slot p).key = hash (c.slot p).dirCacheId x ∧ p.1 = bucketOf (c.slot p).key
  distinct : ∀ p q, (c.slot p).name ≠ 0 → (c.slot q).name ≠ 0 →
    charp (c.slot p).name = charp (c.slot q).name → p = q

theorem Cache.entryAt_eq_some :
    c.entryAt p = some ((d, x), v) ↔ (c.slot p).name ≠ 0 ∧
      c.heap (charp (c.slot p).name) = some x ∧ (c.slot p).dirCacheId = d ∧
      (c.slot p).nodeCacheId = v := by
  unfold Cache.entryAt
  split
  · rename_i hname
    simp [hname]
  · rename_i hname
    simp only [map_eq_some_iff, Prod.mk.injEq]
    constructor
    · rintro ⟨y, hy, ⟨hd, rfl⟩, hv⟩
      exact ⟨hname, hy, hd, hv⟩
    · rintro ⟨-, hx, hd, hv⟩
      exact ⟨x, hx, ⟨hd, rfl⟩, hv⟩

theorem Cache.WF.init : Cache.init.WF hash where
  entry _ hp := absurd rfl hp
  distinct _ _ hp := absurd rfl hp

theorem Cache.WF.bucket (h : c.WF hash) (he : c.entryAt p = some ((d, x), v)) :
    (c.slot p).key = hash d x ∧ p.1 = bucketOf (hash d x) := by
  obtain ⟨hname, hx, hd, -⟩ := Cache.entryAt_eq_some.mp he
  obtain ⟨y, hy, hkey, hbucket⟩ := h.entry p hname
  rw [hx, Option.some.injEq] at hy
  subst hy
  rw [hd] at hkey
  exact ⟨hkey, hkey ▸ hbucket⟩

theorem Cache.WF.matches_iff (h : c.WF hash) :
    c.Matches p d x (hash d x) ↔ ∃ v, c.entryAt p = some ((d, x), v) := by
  constructor
  · rintro ⟨hname, -, hd, hx⟩
    exact ⟨_, Cache.entryAt_eq_some.mpr ⟨hname, hx, hd, rfl⟩⟩
  · rintro ⟨v, he⟩
    obtain ⟨hname, hx, hd, -⟩ := Cache.entryAt_eq_some.mp he
    exact ⟨hname, (h.bucket he).1, hd, hx⟩

theorem Cache.WF.setSlot (h : c.WF hash) {s : Slot} (hp : (c.slot p).name ≠ 0)
    (hcharp : charp s.name = charp (c.slot p).name) (hkey : s.key = (c.slot p).key)
    (hdir : s.dirCacheId = (c.slot p).dirCacheId) : (c.setSlot p s).WF hash := by
  have hslot : ∀ q, ((c.setSlot p s).slot q).name ≠ 0 → (c.slot q).name ≠ 0 ∧
      charp ((c.setSlot p s).slot q).name = charp (c.slot q).name ∧
      ((c.setSlot p s).slot q).key = (c.slot q).key ∧
      ((c.setSlot p s).slot q).dirCacheId = (c.slot q).dirCacheId := by
    intro q hq
    by_cases hqp : q = p
    · subst hqp
      simpa [Cache.setSlot, hp] using ⟨hcharp, hkey, hdir⟩
    · simpa [Cache.setSlot, hqp] using hq
  constructor
  · intro q hq
    obtain ⟨hname, hc, hk, hd⟩ := hslot q hq
    rw [hc, hk, hd]
    exact h.entry q hname
  · intro q r hq hr heq
    obtain ⟨hnq, hcq, -⟩ := hslot q hq
    obtain ⟨hnr, hcr, -⟩ := hslot r hr
    rw [hcq, hcr] at heq
    exact h.distinct q r hnq hnr heq

theorem Cache.entryAt_setSlot {s : Slot} (hs : s.name ≠ 0)
    (hx : c.heap (charp s.name) = some x) :
    (c.setSlot p s).entryAt = Function.update c.entryAt p
      (some ((s.dirCacheId, x), s.nodeCacheId)) := by
  funext q
  by_cases hqp : q = p
  · subst hqp
    rw [Function.update_self, Cache.entryAt_eq_some]
    simpa [Cache.setSlot] using ⟨hs, hx⟩
  · rw [Function.update_of_ne hqp]
    simp [Cache.entryAt, Cache.setSlot, hqp]

theorem Cache.use_spec (h : c.WF hash) (hp : (c.slot p).name ≠ 0) :
    (c.use p).WF hash ∧ (c.use p).entryAt = c.entryAt := by
  unfold Cache.use
  split
  · rename_i hf
    have hcharp := charp_add_one hf
    obtain ⟨x, hx, -⟩ := h.entry p hp
    refine ⟨h.setSlot hp hcharp rfl rfl, ?_⟩
    rw [Cache.entryAt_setSlot (x := x) (by simp) (by rw [hcharp, hx])]
    have hold := Cache.entryAt_eq_some.mpr ⟨hp, hx, rfl, rfl⟩
    rw [← hold, Function.update_eq_self]
  · exact ⟨h, rfl⟩

theorem removeEntry_spec (h : c.WF hash) :
    (removeEntry c p).WF hash ∧ (removeEntry c p).entryAt = Function.update c.entryAt p none ∧
      ((removeEntry c p).slot p).name = 0 := by
  -- the other slots keep their strings, which are not the one freed
  have hother : ∀ q, q ≠ p → (removeEntry c p).slot q = c.slot q ∧ ((c.slot q).name ≠ 0 →
      (removeEntry c p).heap (charp (c.slot q).name) = c.heap (charp (c.slot q).name)) := by
    intro q hqp
    unfold removeEntry
    split
    · rename_i hname
      refine ⟨by simp [Cache.setSlot, Cache.free, hqp], ?_⟩
      intro hq
      have hne : charp (c.slot q).name ≠ charp (c.slot p).name :=
        fun heq => hqp (h.distinct q p hq hname heq)
      simp [Cache.setSlot, Cache.free, hne]
    · exact ⟨by simp [Cache.setSlot, hqp], fun _ => rfl⟩
  have hself : ((removeEntry c p).slot p).name = 0 := by
    unfold removeEntry
    simp [Cache.setSlot]
  have hused : ∀ q, ((removeEntry c p).slot q).name ≠ 0 → q ≠ p :=
    fun q hq hqp => hq (hqp ▸ hself)
  refine ⟨⟨?_, ?_⟩, ?_, hself⟩
  · intro q hq
    obtain ⟨hslot, hheap⟩ := hother q (hused q hq)
    rw [hslot] at hq ⊢
    rw [hheap hq]
    exact h.entry q hq
  · intro q r hq hr heq
    have hslotq := (hother q (hused q hq)).1
    have hslotr := (hother r (hused r hr)).1
    rw [hslotq] at hq heq
    rw [hslotr] at hr heq
    exact h.distinct q r hq hr heq
  · funext q
    by_cases hqp : q = p
    · subst hqp
      simp [Cache.entryAt, hself]
    · obtain ⟨hslot, hheap⟩ := hother q hqp
      rw [Function.update_of_ne hqp, Cache.entryAt, Cache.entryAt, hslot]
      by_cases hname : (c.slot q).name = 0
      · simp [hname]
      · simp [hname, hheap hname]

theorem addEntry_spec (alloc : Allocator) (h : c.WF hash) (hp : p.1 = bucketOf (hash d x)) :
    (addEntry alloc c p x (hash d x) d v).WF hash ∧
      ((addEntry alloc c p x (hash d x) d v).entryAt = Function.update c.entryAt p none ∨
        (addEntry alloc c p x (hash d x) d v).entryAt =
          Function.update c.entryAt p (some ((d, x), v))) := by
  obtain ⟨hwf, hentry, hself⟩ := removeEntry_spec (p := p) h
  unfold addEntry
  generalize removeEntry c p = c₁ at hwf hentry hself
  generalize hptr : alloc.strdup c₁.heap = ptr
  dsimp only
  rw [hptr]
  split
  · exact ⟨hwf, .inl hentry⟩
  · rename_i hne
    obtain ⟨halign, hfresh⟩ := (alloc.fresh c₁.heap).resolve_left (by rwa [hptr])
    rw [hptr] at halign hfresh
    have hcharp := charp_of_aligned halign
    -- no slot in use has the new pointer
    have hold : ∀ q, (c₁.slot q).name ≠ 0 → charp (c₁.slot q).name ≠ ptr := by
      intro q hq heq
      obtain ⟨y, hy, -⟩ := hwf.entry q hq
      rw [heq, hfresh] at hy
      cases hy
    refine ⟨⟨?_, ?_⟩, .inr ?_⟩
    · intro q hq
      by_cases hqp : q = p
      · subst hqp
        refine ⟨x, by simp [Cache.setSlot, hcharp], by simp [Cache.setSlot], ?_⟩
        simpa [Cache.setSlot] using hp
      · have hq' : (c₁.slot q).name ≠ 0 := by simpa [Cache.setSlot, hqp] using hq
        simpa [Cache.setSlot, hqp, hold q hq'] using hwf.entry q hq'
    · intro q r hq hr heq
      by_cases hqp : q = p <;> by_cases hrp : r = p
      · rw [hqp, hrp]
      · have hr' : (c₁.slot r).name ≠ 0 := by simpa [Cache.setSlot, hrp] using hr
        simp [Cache.setSlot, hqp, hrp, hcharp] at heq
        exact absurd heq.symm (hold r hr')
      · have hq' : (c₁.slot q).name ≠ 0 := by simpa [Cache.setSlot, hqp] using hq
        simp [Cache.setSlot, hqp, hrp, hcharp] at heq
        exact absurd heq (hold q hq')
      · have hq' : (c₁.slot q).name ≠ 0 := by simpa [Cache.setSlot, hqp] using hq
        have hr' : (c₁.slot r).name ≠ 0 := by simpa [Cache.setSlot, hrp] using hr
        exact hwf.distinct q r hq' hr' (by simpa [Cache.setSlot, hqp, hrp] using heq)
    · rw [Cache.entryAt_setSlot (x := x) hne (by simp [hcharp])]
      funext q
      by_cases hqp : q = p
      · rw [hqp, Function.update_self, Function.update_self]
      · rw [Function.update_of_ne hqp, Function.update_of_ne hqp]
        have hq₁ : c₁.entryAt q = c.entryAt q := by rw [hentry, Function.update_of_ne hqp]
        rw [← hq₁, Cache.entryAt, Cache.entryAt]
        by_cases hname : (c₁.slot q).name = 0
        · simp [hname]
        · simp [hname, hold q hname]

/-- What `lookup` returns: the entry, or a slot of its bucket when there is no entry. -/
structure Looked (hash : Nat → Name → Nat) (c : Cache) (d : Nat) (x : Name)
    (r : Bool × Position × Cache) : Prop where
  wf : r.2.2.WF hash
  entries : r.2.2.entryAt = c.entryAt
  bucket : r.2.1.1 = bucketOf (hash d x)
  found : r.1 = true → ∃ v, c.entryAt r.2.1 = some ((d, x), v)
  absent : r.1 = false → ∀ q v, c.entryAt q ≠ some ((d, x), v)

theorem lookup_spec (h : c.WF hash) : Looked hash c d x (lookup c d x (hash d x)) := by
  -- the slots already visited do not match
  apply scan_rule (fun _ _ => True)
    (fun is _ => ∀ i, i ∉ is → ¬ c.Matches (bucketOf (hash d x), i) d x (hash d x))
  · intro i is s t hinv _ hround j hj
    by_cases hji : j = i
    · subst hji
      intro hmatch
      simp [lookupRound, hmatch] at hround
    · exact hinv j (by simp [hji, hj])
  · intro i is s r _ _ hround
    simp only [lookupRound] at hround
    split at hround
    · rename_i hmatch
      cases hround
      obtain ⟨hwf, hentries⟩ := Cache.use_spec h hmatch.1
      exact ⟨hwf, hentries, rfl, fun _ => h.matches_iff.mp hmatch, fun hfalse => by cases hfalse⟩
    · split at hround <;> cases hround
  · intro s hinv
    -- an entry would be in the bucket that has been searched
    have habsent : ∀ q v, c.entryAt q ≠ some ((d, x), v) := by
      intro q v hq
      have hbucket := (h.bucket hq).2
      apply hinv q.2 (by simp)
      rw [← hbucket]
      exact h.matches_iff.mpr ⟨v, hq⟩
    dsimp only
    split
    · exact ⟨⟨h.entry, h.distinct⟩, rfl, rfl, (fun htrue => by cases htrue), fun _ => habsent⟩
    · exact ⟨h, rfl, rfl, (fun htrue => by cases htrue), fun _ => habsent⟩
  · exact scanVisits_of_forall _ (fun _ _ => trivial) _ _
  · intro i hi
    exact absurd (mem_finRange i) hi

section Agree

variable {Agree Agree' : Nat × Name → Nat → Prop}

/-- A cache without dangling pointers whose entries agree with the truth. -/
structure Cache.Sound (hash : Nat → Name → Nat) (Agree : Nat × Name → Nat → Prop) (c : Cache) :
    Prop where
  wf : c.WF hash
  slots : SlotsAgree Agree c.entryAt

theorem lookup_sound (h : c.Sound hash Agree) :
    (lookup c d x (hash d x)).2.2.Sound hash Agree := by
  have hl := lookup_spec (d := d) (x := x) h.wf
  exact ⟨hl.wf, hl.entries ▸ h.slots⟩

theorem enterLookupCache_sound (alloc : Allocator) {dir : Node} (h : c.Sound hash Agree)
    (hagree : Agree' (dir.cacheId, x) v)
    (hchange : ∀ k w, k ≠ (dir.cacheId, x) → Agree k w → Agree' k w) :
    (enterLookupCache hash alloc c dir v x).Sound hash Agree' := by
  have hl := lookup_spec (d := dir.cacheId) (x := x) h.wf
  unfold enterLookupCache
  dsimp only
  generalize lookup c dir.cacheId x (hash dir.cacheId x) = r at hl
  obtain ⟨found, p, c₁⟩ := r
  have hslots : SlotsAgree Agree c₁.entryAt := hl.entries ▸ h.slots
  cases found with
  | false =>
    obtain ⟨hwf, hentries⟩ := addEntry_spec (v := v) alloc hl.wf hl.bucket
    refine ⟨hwf, ?_⟩
    rcases hentries with hentries | hentries
    · rw [hentries]
      refine (hslots.change ?_).clear p
      intro q k w hq hold
      apply hchange k w _ hold
      intro hk
      rw [hl.entries, hk] at hq
      exact hl.absent rfl q w hq
    · rw [hentries]
      apply hslots.store hagree hchange
      intro q w hq
      rw [hl.entries] at hq
      exact absurd hq (hl.absent rfl q w)
  | true =>
    obtain ⟨w, hw⟩ := hl.found rfl
    rw [← hl.entries] at hw
    obtain ⟨hname, hx, hd, -⟩ := Cache.entryAt_eq_some.mp hw
    refine ⟨hl.wf.setSlot hname rfl rfl rfl, ?_⟩
    dsimp only at hname hx hd ⊢
    rw [Cache.entryAt_setSlot (s := { c₁.slot p with nodeCacheId := v }) hname hx, hd]
    apply hslots.store hagree hchange
    intro q w' hq
    exact hslots.unique hq hw

theorem purge_foldl (h : c.WF hash) (dp np : Node) (ps : List Position) :
    (ps.foldl (fun c p =>
      if (c.slot p).name ≠ 0 ∧ (c.slot p).dirCacheId = dp.cacheId ∧
          (c.slot p).nodeCacheId = np.cacheId then removeEntry c p
      else c) c).WF hash ∧
    ∀ q d x v, (ps.foldl (fun c p =>
      if (c.slot p).name ≠ 0 ∧ (c.slot p).dirCacheId = dp.cacheId ∧
          (c.slot p).nodeCacheId = np.cacheId then removeEntry c p
      else c) c).entryAt q = some ((d, x), v) →
      c.entryAt q = some ((d, x), v) ∧ (q ∈ ps → ¬ (d = dp.cacheId ∧ v = np.cacheId)) := by
  induction ps generalizing c with
  | nil => exact ⟨h, fun q d x v hq => ⟨hq, by simp⟩⟩
  | cons p ps ih =>
    rw [foldl_cons]
    split
    · obtain ⟨hwf, hentry, -⟩ := removeEntry_spec (p := p) h
      obtain ⟨hwf', hrest⟩ := ih hwf
      refine ⟨hwf', ?_⟩
      intro q d x v hq
      obtain ⟨hq', hnot⟩ := hrest q d x v hq
      rw [hentry] at hq'
      by_cases hqp : q = p
      · subst hqp
        rw [Function.update_self] at hq'
        cases hq'
      · rw [Function.update_of_ne hqp] at hq'
        exact ⟨hq', fun hmem => hnot ((mem_cons.mp hmem).resolve_left hqp)⟩
    · rename_i hkeep
      obtain ⟨hwf', hrest⟩ := ih h
      refine ⟨hwf', ?_⟩
      intro q d x v hq
      obtain ⟨hq', hnot⟩ := hrest q d x v hq
      refine ⟨hq', ?_⟩
      intro hmem hmatch
      rcases mem_cons.mp hmem with rfl | hmem
      · obtain ⟨hname, -, hd, hv⟩ := Cache.entryAt_eq_some.mp hq'
        exact hkeep ⟨hname, hd.trans hmatch.1, hv.trans hmatch.2⟩
      · exact hnot hmem hmatch

theorem mem_positions (p : Position) : p ∈ positions := by
  simp [positions, List.product]

theorem purgeLookupCache_spec (h : c.WF hash) (dp np : Node) :
    (purgeLookupCache c dp np).WF hash ∧
      ∀ q d x v, (purgeLookupCache c dp np).entryAt q = some ((d, x), v) →
        c.entryAt q = some ((d, x), v) ∧ ¬ (d = dp.cacheId ∧ v = np.cacheId) := by
  obtain ⟨hwf, hentries⟩ := purge_foldl h dp np positions
  refine ⟨hwf, ?_⟩
  intro q d x v hq
  obtain ⟨hq', hnot⟩ := hentries q d x v hq
  exact ⟨hq', hnot (mem_positions q)⟩

theorem purgeLookupCache_sound (h : c.Sound hash Agree) (dp np : Node) :
    (purgeLookupCache c dp np).Sound hash Agree := by
  obtain ⟨hwf, hentries⟩ := purgeLookupCache_spec h.wf dp np
  refine ⟨hwf, h.slots.forget ?_⟩
  intro q e hq
  exact (hentries q e.1.1 e.1.2 e.2 hq).1

end Agree

/-- What the directories say about an entry. Names with a slash are never looked for. -/
def Designates (dir : Node → Name → Option Node) (k : Nat × Name) (v : Nat) : Prop :=
  slash ∉ k.2 → ∀ dp : Node, dp.cacheId = k.1 → v = (dir dp k.2).elim 0 Node.cacheId

variable {s : State} {dp np : Node} {name : Name} {root : Node} {nameMax : Nat}

theorem Node.eq_of_cacheId {m n : Node} (h : m.cacheId = n.cacheId) : m = n := by
  cases m
  cases n
  cases h
  rfl

theorem designates_self (dp : Node) (x : Name) (dir : Node → Name → Option Node) :
    Designates dir (dp.cacheId, x) ((dir dp x).elim 0 Node.cacheId) := by
  intro _ dp' hdp
  rw [Node.eq_of_cacheId hdp]

theorem Designates.setDir {k : Nat × Name} (h : Designates s.dir k v) (on : Option Node)
    (hk : k ≠ (dp.cacheId, name)) : Designates (s.setDir dp name on).dir k v := by
  intro hslash dp' hdp
  rw [h hslash dp' hdp]
  unfold State.setDir
  by_cases hd : dp' = dp
  · subst hd
    have hname : k.2 ≠ name := by
      rintro rfl
      exact hk (Prod.ext hdp.symm rfl)
    simp [hname]
  · simp [hd]

theorem stripSlashes_spec (h : stripSlashes name = some x) :
    slash ∉ x ∧ (slash ∉ name → x = name) := by
  simp only [stripSlashes] at h
  split at h
  · cases h
  · split at h
    · simp only [Option.some.injEq] at h
      subst h
      constructor
      · intro hmem
        simpa using mem_takeWhile_imp hmem
      · intro hslash
        have hdrop : name.dropWhile (· = slash) = name := by
          cases name with
          | nil => rfl
          | cons b bs =>
            have hb : b ≠ slash := fun hb => hslash (by simp [hb])
            simp [hb]
        rw [hdrop, takeWhile_eq_self_iff]
        intro b hb
        have hne : b ≠ slash := fun hbs => hslash (hbs ▸ hb)
        simpa using hne
    · cases h

/-- The cache of a server agrees with its directories. -/
def State.Coherent (hash : Nat → Name → Nat) (s : State) : Prop :=
  s.cache.Sound hash (Designates s.dir)

theorem coherent_init (dir : Node → Name → Option Node) : (State.init dir).Coherent hash :=
  ⟨.init, .empty⟩

theorem lookupHard_coherent (ans : Answers) (call : LookupCall) (h : s.Coherent hash) :
    (lookupHard hash nameMax ans s call).2.Coherent hash := by
  have hself := designates_self call.dp call.name s.dir
  simp only [lookupHard]
  split
  · exact h
  · split
    · exact h
    · rename_i np hfound _
      dsimp only [State.Coherent]
      split
      · rw [hfound] at hself
        exact enterLookupCache_sound ans.alloc h hself fun _ _ _ hold => hold
      · exact h
    · rename_i hfound _
      dsimp only [State.Coherent]
      split
      · rw [hfound] at hself
        exact enterLookupCache_sound ans.alloc h hself fun _ _ _ hold => hold
      · exact h

theorem lookupCached_coherent (ans : Answers) (call : LookupCall) (check : Check)
    (h : s.Coherent hash) : (lookupCached hash nameMax ans s call check).2.Coherent hash := by
  cases check with
  | unknown =>
    simp only [lookupCached]
    split
    · exact h
    · exact lookupHard_coherent ans call h
  | absent => exact h
  | node id => exact h
  | parent id => exact h

theorem checkLookupCache_sound {Agree : Nat × Name → Nat → Prop} (got : Bool) (dir : Node)
    (x : Name) (h : c.Sound hash Agree) :
    (checkLookupCache hash root got c dir x).2.Sound hash Agree := by
  have hl := lookup_sound (d := dir.cacheId) (x := x) h
  unfold checkLookupCache
  split
  · exact h
  · generalize lookup c dir.cacheId x (hash dir.cacheId x) = r at hl
    obtain ⟨found, p, c₁⟩ := r
    cases found <;> dsimp only <;> repeat' split
    all_goals exact hl

theorem recheckLookupCache_sound {Agree : Nat × Name → Nat → Prop} (got : Bool) (dir : Node)
    (id : Nat) (h : c.Sound hash Agree) :
    (recheckLookupCache hash got c dir id).2.Sound hash Agree := by
  have hl := lookup_sound (d := dir.cacheId) (x := dotdot) h
  unfold recheckLookupCache
  generalize lookup c dir.cacheId dotdot (hash dir.cacheId dotdot) = r at hl
  obtain ⟨found, p, c₁⟩ := r
  cases found <;> dsimp only <;> repeat' split
  all_goals exact hl

theorem diskfsLookup_coherent (ans : Answers) (call : LookupCall) (h : s.Coherent hash) :
    (diskfsLookup hash root nameMax ans s call).2.Coherent hash := by
  unfold diskfsLookup
  split
  · exact h
  · split
    · exact h
    · dsimp only
      split
      · exact h
      · split
        · exact h
        · split
          · exact lookupCached_coherent ans _ _ (checkLookupCache_sound ans.got call.dp _ h)
          · exact lookupCached_coherent ans _ _ h

theorem lookupRelocked_coherent (ans : Answers) (call : LookupCall) (check : Check)
    (h : s.Coherent hash) : (lookupRelocked hash nameMax ans s call check).2.Coherent hash := by
  cases check with
  | parent id =>
    exact lookupCached_coherent ans call _ (recheckLookupCache_sound ans.got call.dp id h)
  | unknown => exact lookupHard_coherent ans call h
  | absent => exact lookupHard_coherent ans call h
  | node id => exact lookupHard_coherent ans call h

theorem diskfsDirenter_coherent (alloc : Allocator) (hard : Option Errno) (np : Node)
    (h : s.Coherent hash) : (diskfsDirenter hash alloc hard s dp name np).Coherent hash := by
  cases hard with
  | some err => exact h
  | none =>
    have hself := designates_self dp name (s.setDir dp name (some np)).dir
    have hnew : (s.setDir dp name (some np)).dir dp name = some np := by simp [State.setDir]
    rw [hnew] at hself
    exact enterLookupCache_sound alloc h hself fun _ _ hk hold => hold.setDir _ hk

/-- No entry is there for a name of a directory. -/
def State.Unknown (s : State) (dp : Node) (x : Name) : Prop :=
  ∀ q v, s.cache.entryAt q ≠ some ((dp.cacheId, x), v)

theorem State.purge_cache (s : State) (dp np : Node) :
    (s.purge dp np).cache = purgeLookupCache s.cache dp np := by
  rw [State.purge]

theorem State.purge_dir (s : State) (dp np : Node) : (s.purge dp np).dir = s.dir := by
  rw [State.purge]

theorem purge_coherent (h : s.Coherent hash) (dp np : Node) : (s.purge dp np).Coherent hash := by
  rw [State.Coherent, State.purge_cache, State.purge_dir]
  exact purgeLookupCache_sound h dp np

theorem purge_unknown (h : s.Coherent hash) (hslash : slash ∉ x) (hx : s.dir dp x = some np) :
    (s.purge dp np).Unknown dp x := by
  intro q v hq
  rw [State.purge_cache] at hq
  obtain ⟨hold, hnot⟩ := (purgeLookupCache_spec h.wf dp np).2 q dp.cacheId x v hq
  have hv := h.slots.agree hold hslash dp rfl
  rw [hx] at hv
  exact hnot ⟨rfl, hv⟩

theorem State.Unknown.setDir (hx : s.Unknown dp x) (h : s.Coherent hash) (on : Option Node) :
    s.cache.Sound hash (Designates (s.setDir dp x on).dir) := by
  refine ⟨h.wf, h.slots.change ?_⟩
  intro q k v hq hold
  apply hold.setDir on
  rintro rfl
  exact hx q v hq

theorem dirremoveHard_coherent (hard : Option Errno) (h : s.Coherent hash) (hx : s.Unknown dp x) :
    (dirremoveHard hard s dp x).Coherent hash := by
  cases hard with
  | some err => exact h
  | none => exact hx.setDir h none

theorem dirrewriteHard_coherent (alloc : Allocator) (hard : Option Errno) (np : Node)
    (h : s.Coherent hash) (hx : s.Unknown dp x) (hname : slash ∉ name → x = name) :
    (dirrewriteHard hash alloc hard s dp np name x).Coherent hash := by
  cases hard with
  | some err => exact h
  | none =>
    apply enterLookupCache_sound alloc (hx.setDir h (some np))
    · intro hslash dp' hdp
      rw [Node.eq_of_cacheId hdp]
      simp [dirrewriteHard, State.setDir, hname hslash]
    · exact fun _ _ _ hold => hold

theorem step_coherent {t : State} {e : Event} (h : s.Coherent hash) (hok : e.Enabled s)
    (hs : step hash root nameMax s e = some t) : t.Coherent hash := by
  cases e with
  | lookup call ans =>
    cases hs
    exact diskfsLookup_coherent ans call h
  | relocked i ans =>
    obtain ⟨⟨call, check⟩, -, rfl⟩ := map_eq_some_iff.mp hs
    exact lookupRelocked_coherent ans call check h
  | direnter dp name np hard alloc =>
    cases hs
    exact diskfsDirenter_coherent alloc hard np h
  | dirremove dp np name hard =>
    obtain ⟨x, hstrip, rfl⟩ := map_eq_some_iff.mp hs
    obtain ⟨y, hy, hx⟩ := hok
    rw [hstrip, Option.some.injEq] at hy
    subst hy
    have hunknown := purge_unknown h (stripSlashes_spec hstrip).1 hx
    exact dirremoveHard_coherent hard (purge_coherent h dp np) hunknown
  | dirrewrite dp oldnp np name hard alloc =>
    obtain ⟨x, hstrip, rfl⟩ := map_eq_some_iff.mp hs
    obtain ⟨y, hy, hx⟩ := hok
    rw [hstrip, Option.some.injEq] at hy
    subst hy
    obtain ⟨hslash, hname⟩ := stripSlashes_spec hstrip
    have hunknown := purge_unknown h hslash hx
    exact dirrewriteHard_coherent alloc hard np (purge_coherent h dp oldnp) hunknown hname

theorem coherent_of_reach {dir : Node → Name → Option Node}
    (h : Reach (step hash root nameMax) (fun s e => e.Enabled s) (State.init dir) s) :
    s.Coherent hash :=
  h.invariant (State.Coherent hash) (coherent_init dir) fun _ _ _ hinv hok hs =>
    step_coherent hinv hok hs

theorem Looked.entry {r : Bool × Position × Cache} (h : Looked hash c d x r) (hr : r.1 = true) :
    c.entryAt r.2.1 = some ((d, x), (r.2.2.slot r.2.1).nodeCacheId) := by
  obtain ⟨v, hv⟩ := h.found hr
  have hslot := hv
  rw [← h.entries] at hslot
  rw [(Cache.entryAt_eq_some.mp hslot).2.2.2, hv]

theorem checkLookupCache_entry (root : Node) (got : Bool) (dir : Node) (x : Name)
    (h : c.WF hash) :
    ((checkLookupCache hash root got c dir x).1 = .absent →
      ∃ p, c.entryAt p = some ((dir.cacheId, x), 0)) ∧
    ∀ id, (checkLookupCache hash root got c dir x).1 = .node id ∨
        (checkLookupCache hash root got c dir x).1 = .parent id →
      id ≠ 0 ∧ ∃ p, c.entryAt p = some ((dir.cacheId, x), id) := by
  have hl := lookup_spec (d := dir.cacheId) (x := x) h
  unfold checkLookupCache
  split
  · simp
  · generalize lookup c dir.cacheId x (hash dir.cacheId x) = r at hl
    obtain ⟨found, p, c₁⟩ := r
    cases found with
    | false => simp
    | true =>
      have hentry := hl.entry rfl
      dsimp only at hentry ⊢
      generalize (c₁.slot p).nodeCacheId = v at hentry ⊢
      by_cases hv : v = 0
      · subst hv
        rw [if_pos rfl]
        exact ⟨fun _ => ⟨p, hentry⟩, by simp⟩
      · have hanswer : ∀ id, v = id → id ≠ 0 ∧ ∃ p, c.entryAt p = some ((dir.cacheId, x), id) :=
          fun id hid => hid ▸ ⟨hv, p, hentry⟩
        rw [if_neg hv]
        constructor
        · repeat' split
          all_goals simp
        · intro id hid
          apply hanswer
          revert hid
          repeat' split
          all_goals simp_all

theorem recheckLookupCache_entry (got : Bool) (dir : Node) (id id' : Nat) (h : c.WF hash)
    (hid : (recheckLookupCache hash got c dir id).1 = .node id') :
    id' = id ∧ ∃ p, c.entryAt p = some ((dir.cacheId, dotdot), id) := by
  have hl := lookup_spec (d := dir.cacheId) (x := dotdot) h
  unfold recheckLookupCache at hid
  generalize lookup c dir.cacheId dotdot (hash dir.cacheId dotdot) = r at hl hid
  obtain ⟨found, p, c₁⟩ := r
  cases found with
  | false => cases hid
  | true =>
    have hentry := hl.entry rfl
    dsimp only at hentry hid
    split at hid
    · cases hid
    · rename_i hv
      rw [not_not.mp hv] at hentry
      dsimp only at hid
      split at hid
      · cases hid
        exact ⟨rfl, p, hentry⟩
      · cases hid

theorem Designates.none_of_zero (h : Designates s.dir (dp.cacheId, x) 0) (hslash : slash ∉ x) :
    s.dir dp x = none := by
  have hv := h hslash dp rfl
  cases hx : s.dir dp x with
  | none => rfl
  | some np =>
    rw [hx] at hv
    exact absurd hv.symm np.ne_zero

theorem Designates.some_of_ne_zero (h : Designates s.dir (dp.cacheId, x) v) (hslash : slash ∉ x)
    (hne : v ≠ 0) : ∃ np, s.dir dp x = some np ∧ np.cacheId = v := by
  have hv := h hslash dp rfl
  cases hx : s.dir dp x with
  | none =>
    rw [hx] at hv
    exact absurd hv hne
  | some np =>
    rw [hx] at hv
    exact ⟨np, rfl, hv.symm⟩

/-- Whatever lookups and modifications have been made, and whichever of the file system's functions
have failed: an entry for a name without slashes says what its directory says, so a hit for a name
that `diskfs_lookup` asks for is right, also when the directory has been unlocked in between; and
no two slots in use are for one name of one directory. -/
theorem lookup_cache_coherent {dir : Node → Name → Option Node}
    (h : Reach (step hash root nameMax) (fun s e => e.Enabled s) (State.init dir) s) :
    (∀ p (dp : Node) x v, s.cache.entryAt p = some ((dp.cacheId, x), v) → slash ∉ x →
      (v = 0 → s.dir dp x = none) ∧ (v ≠ 0 → ∃ np, s.dir dp x = some np ∧ np.cacheId = v)) ∧
    (∀ got dp name x, stripSlashes name = some x →
      ((checkLookupCache hash root got s.cache dp x).1 = .absent → s.dir dp x = none) ∧
      ∀ id, (checkLookupCache hash root got s.cache dp x).1 = .node id ∨
          (checkLookupCache hash root got s.cache dp x).1 = .parent id →
        ∃ np, s.dir dp x = some np ∧ np.cacheId = id) ∧
    (∀ got dp (np : Node) id, (recheckLookupCache hash got s.cache dp np.cacheId).1 = .node id →
      s.dir dp dotdot = some np ∧ np.cacheId = id) ∧
    (∀ p q, (s.cache.slot p).name ≠ 0 → (s.cache.slot q).name ≠ 0 →
      (s.cache.slot p).dirCacheId = (s.cache.slot q).dirCacheId →
      s.cache.heap (charp (s.cache.slot p).name) = s.cache.heap (charp (s.cache.slot q).name) →
      p = q) := by
  have hinv := coherent_of_reach h
  refine ⟨?_, ?_, ?_, ?_⟩
  · intro p dp x v hp hslash
    have hagree := hinv.slots.agree hp
    exact ⟨fun hv => (hv ▸ hagree).none_of_zero hslash, hagree.some_of_ne_zero hslash⟩
  · intro got dp name x hstrip
    have hslash := (stripSlashes_spec hstrip).1
    obtain ⟨habsent, hnode⟩ := checkLookupCache_entry root got dp x hinv.wf
    constructor
    · intro hcheck
      obtain ⟨p, hp⟩ := habsent hcheck
      exact (hinv.slots.agree hp).none_of_zero hslash
    · intro id hcheck
      obtain ⟨hne, p, hp⟩ := hnode id hcheck
      exact (hinv.slots.agree hp).some_of_ne_zero hslash hne
  · intro got dp np id hcheck
    obtain ⟨hid, p, hp⟩ := recheckLookupCache_entry got dp np.cacheId id hinv.wf hcheck
    obtain ⟨np', hnp, heq⟩ := (hinv.slots.agree hp).some_of_ne_zero (by decide) np.ne_zero
    exact ⟨Node.eq_of_cacheId heq ▸ hnp, hid.symm⟩
  · intro p q hp hq hdir hheap
    obtain ⟨x, hx, -⟩ := hinv.wf.entry p hp
    have hentryp := Cache.entryAt_eq_some.mpr ⟨hp, hx, rfl, rfl⟩
    have hentryq := Cache.entryAt_eq_some.mpr ⟨hq, hheap ▸ hx, hdir.symm, rfl⟩
    exact hinv.slots.unique hentryp hentryq

def oneString : Allocator where
  strdup heap := if heap 4 = none then 4 else 0
  fresh heap := by
    split
    · rename_i hfree
      exact .inr ⟨rfl, hfree⟩
    · exact .inl rfl

/-- All functions that a lookup calls succeed. -/
def noErrors : Answers := ⟨true, none, none, true, none, by decide, none, oneString⟩

theorem lookup_cache_coherent_absent :
    let dp : Node := ⟨2, by decide⟩
    let s := (diskfsLookup (fun _ _ => 0) dp 255 noErrors (State.init fun _ _ => none)
      ⟨dp, [98], .lookup, false, true⟩).2
    (checkLookupCache (fun _ _ => 0) dp true s.cache dp [98]).1 = .absent ∧
      s.dir dp [98] = none := by
  intro dp s
  have hreach : Reach (step (fun _ _ => 0) dp 255) (fun s e => e.Enabled s)
      (State.init fun _ _ => none) s :=
    .step (.lookup ⟨dp, [98], .lookup, false, true⟩ noErrors) .start trivial rfl
  have hhit : (checkLookupCache (fun _ _ => 0) dp true s.cache dp [98]).1 = .absent := by
    decide
  exact ⟨hhit, ((lookup_cache_coherent hreach).2.1 true dp [47, 98] [98] (by decide)).1 hhit⟩

end Hurd.NameCache
