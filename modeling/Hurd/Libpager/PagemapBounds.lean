import Hurd.Framework.Count
import Hurd.Libpager.Pager

/-!
# Accesses to the page map

The page map does not shrink while a call blocks the termination of the object. So a call that has
made room for its pages and has not yet allowed termination again finds them in the map.
-/

namespace Hurd.Libpager

open List

variable {s t : Pager} {c d : Call} {i n : Nat}

def Call.blocks : Call → Bool
  | .reading _ _ | .supplied _ | .failed _ | .failedLoaded _ _ _ | .leaving | .writeWaiting _
  | .writing _ _ _ _ => true
  | _ => false

/-- The pages that the call is going to look up while it blocks termination. -/
def Call.pages : Call → List Nat
  | .reading offset _ | .supplied offset | .failed offset | .failedLoaded offset _ _ =>
      [offset / pageSize]
  | .writeWaiting w | .writing w _ _ _ => w.pages
  | _ => []

theorem Call.pages_eq_nil (hc : c.blocks = false) : c.pages = [] := by
  cases c with
  | reading | supplied | failed | failedLoaded | writeWaiting | writing => cases hc
  | _ => rfl

/-- All accesses have been inside of the map, and those that calls are going to make will be. A
number of calls have not yet been put down that block termination. -/
structure Bounded (n : Nat) (s : Pager) : Prop where
  inside : ∀ a ∈ s.accesses, a.1 < a.2
  noterm : s.noterm = s.calls.countP Call.blocks + n
  room : ∀ c ∈ s.calls, ∀ k ∈ c.pages, k < s.pagemap.length

namespace Bounded

variable {pages : List Nat}

theorem access (h : Bounded n s) (hpages : ∀ k ∈ pages, k < s.pagemap.length) :
    Bounded n (s.access pages) := by
  refine ⟨?_, h.noterm, h.room⟩
  intro a ha
  rcases mem_append.mp ha with ha | ha
  · exact h.inside a ha
  · obtain ⟨k, hk, rfl⟩ := mem_map.mp ha
    exact hpages k hk

theorem of_eq (h : Bounded n s) (haccesses : t.accesses = s.accesses)
    (hnoterm : t.noterm = s.noterm) (hlength : s.pagemap.length ≤ t.pagemap.length)
    (hcalls : t.calls = s.calls) : Bounded n t := by
  refine ⟨haccesses ▸ h.inside, ?_, ?_⟩
  · rw [hnoterm, hcalls]
    exact h.noterm
  · intro c hc k hk
    exact Nat.lt_of_lt_of_le (h.room c (hcalls ▸ hc) k hk) hlength

theorem updatePages {f : Entry → Entry} (h : Bounded n s)
    (hpages : ∀ k ∈ pages, k < s.pagemap.length) : Bounded n (s.updatePages pages f) :=
  (h.access hpages).of_eq rfl rfl (Nat.le_of_eq Pager.length_updatePages.symm) rfl

theorem storePages {f : Entry → Entry} (h : Bounded n s) (generation : Nat)
    (hpages : ∀ k ∈ pages, k < s.pagemap.length) : Bounded n (s.storePages generation pages f) := by
  unfold Pager.storePages
  split
  · exact h.updatePages hpages
  · exact h.access hpages

theorem pagemapResize (h : Bounded n s) (r : Realloc) (off : Nat) :
    Bounded n (s.pagemapResize r off).1 := by
  obtain ⟨pagemap, generation, heq, hlength, -⟩ := s.pagemapResize_eq r off
  rw [heq]
  exact h.of_eq rfl rfl hlength rfl

theorem blockTermination (h : Bounded n s) : Bounded (n + 1) s.blockTermination :=
  ⟨h.inside, congrArg (· + 1) h.noterm, h.room⟩

theorem allowTermination (h : Bounded (n + 1) s) : Bounded n s.allowTermination :=
  ⟨h.inside, congrArg (· - 1) h.noterm, h.room⟩

theorem enter (h : Bounded (n + c.blocks.toNat) s) (hroom : ∀ k ∈ c.pages, k < s.pagemap.length) :
    Bounded n (s.enter c) := by
  refine ⟨h.inside, ?_, ?_⟩
  · have hnoterm := h.noterm
    show s.noterm = (s.calls ++ [c]).countP Call.blocks + n
    rw [countP_append, countP_singleton]
    cases hc : c.blocks with
    | false =>
      rw [hc, Bool.toNat_false] at hnoterm
      simp only [Bool.false_eq_true, if_false]
      omega
    | true =>
      rw [hc, Bool.toNat_true] at hnoterm
      simp only [if_true]
      omega
  · intro d hd k hk
    rcases mem_append.mp hd with hd | hd
    · exact h.room d hd k hk
    · rw [mem_singleton.mp hd] at hk
      exact hroom k hk

theorem setCall (h : Bounded n s) (hi : s.calls[i]? = some c) (hblocks : d.blocks = c.blocks)
    (hroom : ∀ k ∈ d.pages, k < s.pagemap.length) : Bounded n (s.setCall i d) := by
  refine ⟨h.inside, ?_, ?_⟩
  · have hcount := countP_set_add Call.blocks s.calls hi d
    rw [hblocks] at hcount
    have hnoterm := h.noterm
    show s.noterm = (s.calls.set i d).countP Call.blocks + n
    omega
  · intro e he k hk
    rcases mem_or_eq_of_mem_set he with he | rfl
    · exact h.room e he k hk
    · exact hroom k hk

theorem leave (h : Bounded n s) (hi : s.calls[i]? = some c) (hc : c.blocks = true)
    (hd : d.blocks = false) : Bounded n (s.allowTermination.setCall i d) := by
  refine ⟨h.inside, ?_, ?_⟩
  · have hcount := countP_set_add Call.blocks s.calls hi d
    have hnoterm := h.noterm
    rw [hc, hd] at hcount
    simp only [if_true, Bool.false_eq_true, if_false] at hcount
    show s.noterm - 1 = (s.calls.set i d).countP Call.blocks + n
    omega
  · intro e he k hk
    rcases mem_or_eq_of_mem_set he with he | rfl
    · exact h.room e he k hk
    · rw [Call.pages_eq_nil hd] at hk
      cases hk

theorem acceptRequest {offset : Nat} {write : Bool} (h : Bounded 0 s)
    (hpage : offset / pageSize < s.pagemap.length) :
    Bounded 0 (acceptRequest s offset pageSize write) := by
  have hone : ∀ k ∈ [offset / pageSize], k < s.pagemap.length := by
    intro k hk
    rw [mem_singleton.mp hk]
    exact hpage
  have hnoted : Bounded 1 (noteRequest s (offset / pageSize)) := by
    refine Bounded.updatePages ?_ hone
    exact h.blockTermination.of_eq rfl rfl (Nat.le_refl _) rfl
  have hlength : (noteRequest s (offset / pageSize)).pagemap.length = s.pagemap.length :=
    Pager.length_updatePages
  unfold Libpager.acceptRequest
  dsimp only
  rw [← hlength] at hone
  generalize noteRequest s (offset / pageSize) = u at *
  split
  · generalize pagerPageErrors (s.entry (offset / pageSize)).nextError = err
    have hanswered : Bounded 1 (u.answer [(offset / pageSize, .error err)]) :=
      hnoted.of_eq rfl rfl (Nat.le_refl _) rfl
    have hmarked : Bounded 1 ((u.answer [(offset / pageSize, .error err)]).markObjectError offset
        pageSize err) := by
      apply hanswered.updatePages
      intro k hk
      have hrange := mem_range'_1.mp hk
      have hself : pageSize / pageSize = 1 := rfl
      have hlt := hone (offset / pageSize) (mem_singleton_self _)
      show k < u.pagemap.length
      omega
    refine Bounded.enter (c := .leaving) (hmarked.updatePages ?_) ?_
    · intro k hk
      rw [Pager.markObjectError, Pager.length_updatePages]
      exact hone k hk
    · intro k hk
      cases hk
  · split
    · refine Bounded.enter (c := .leaving) hnoted ?_
      intro k hk
      cases hk
    · exact Bounded.enter (c := .reading _ _) hnoted hone

theorem dataRequest {control offset length : Nat} {write : Bool} {r : Realloc} (h : Bounded 0 s)
    (hok : Accepts s control offset length →
      offset + length < 2 ^ 64 ∨ offset / pageSize < s.pagemap.length) :
    Bounded 0 (dataRequest s control offset length write r) := by
  unfold Libpager.dataRequest
  split
  · rename_i haccepts
    have hgrown := h.pagemapResize r (wrap (offset + length))
    obtain ⟨pagemap, generation, heq, hlength, -⟩ := s.pagemapResize_eq r (wrap (offset + length))
    dsimp only
    split
    · exact hgrown
    · rename_i hsuccess
      have hroom := Pager.le_length_of_grown (Bool.eq_true_of_not_eq_false hsuccess)
      rw [haccepts.2.1] at hroom hgrown ⊢
      apply hgrown.acceptRequest
      rcases hok haccepts with hlt | hlt
      · rw [haccepts.2.1] at hlt
        rw [wrap, Nat.mod_eq_of_lt hlt, Nat.add_div_right _ (by decide)] at hroom
        rw [wrap, Nat.mod_eq_of_lt hlt]
        omega
      · rw [haccepts.2.1] at heq
        rw [heq]
        exact Nat.lt_of_lt_of_le hlt hlength
  · exact h

theorem retry {w : WriteRequest} {stale : Nat → Entry} (h : Bounded n s)
    (hpages : ∀ k ∈ w.pages, k < s.pagemap.length) (hs : retry s w stale = some (t, c)) :
    Bounded n t ∧ c.blocks = true ∧ c.pages = w.pages ∧ t.calls = s.calls ∧
      t.pagemap.length = s.pagemap.length := by
  unfold Libpager.retry at hs
  dsimp only at hs
  split at hs
  · rename_i page hfind
    cases hs
    refine ⟨?_, rfl, rfl, Pager.calls_storePages, Pager.length_storePages⟩
    apply Bounded.storePages
    · apply h.access
      intro k hk
      exact hpages k (takeWhile_subset _ hk)
    · intro k hk
      rw [mem_singleton.mp hk]
      exact hpages page (mem_of_find?_eq_some hfind)
  · split at hs
    · cases hs
    · cases hs
      refine ⟨?_, rfl, rfl, Pager.calls_storePages, Pager.length_storePages⟩
      refine Bounded.of_eq (Bounded.storePages (h.access hpages) w.generation ?_) rfl rfl
        (Nat.le_refl _) rfl
      intro k hk
      exact hpages k (mem_of_mem_filter hk)

/-- The pages of a data return are in the map, or there is room for them. -/
def ReturnRoom (s : Pager) (offset length : Nat) (r : Realloc) : Prop :=
  (∀ k ∈ List.range' (offset / pageSize) (length / pageSize), k < s.pagemap.length) ∨
    offset + length < 2 ^ 64 ∧ r ≠ .fails

/-- The checks of a data return, before the page map is grown, and whether it looks at the map. -/
def ReturnLooks (s : Pager) (control offset length : Nat) (dirty kcopy : Bool) : Prop :=
  control = s.memobjcntl ∧ length % pageSize = 0 ∧ offset % pageSize = 0 ∧ s.state = .normal ∧
    (dirty = true ∨ kcopy = false ∧ s.notifyOnEvict = true)

theorem pages_lt_length {offset length : Nat} {r : Realloc} (hlength : length % pageSize = 0)
    (hoffset : offset % pageSize = 0) (hroom : ReturnRoom s offset length r) :
    ∀ k ∈ List.range' (offset / pageSize) (length / pageSize),
      k < (s.pagemapResize r (wrap (offset + length))).1.pagemap.length := by
  intro k hk
  rcases hroom with hroom | ⟨hlt, hfails⟩
  · obtain ⟨pagemap, generation, heq, hle, -⟩ := s.pagemapResize_eq r (wrap (offset + length))
    rw [heq]
    exact Nat.lt_of_lt_of_le (hroom k hk) hle
  · have hrange := mem_range'_1.mp hk
    rw [Pager.length_pagemapResize, if_neg hfails, wrap, Nat.mod_eq_of_lt hlt]
    unfold pageSize at *
    omega

theorem doWriteRequest {control offset length : Nat} {dirty kcopy initializing : Bool}
    {r : Realloc} (h : Bounded 0 s)
    (hok : ReturnLooks s control offset length dirty kcopy → ReturnRoom s offset length r)
    (hs : doWriteRequest s control offset length dirty kcopy initializing r = some t) :
    Bounded 0 t := by
  rcases doWriteRequest_cases hs with
    rfl | ⟨⟨hcontrol, hlength, hoffset, hstate⟩, u, hu, hround⟩
  · exact h
  have hgrown : Bounded 1 u := hu ▸ h.blockTermination.pagemapResize r (wrap (offset + length))
  have hevict : u.notifyOnEvict = s.notifyOnEvict := by
    obtain ⟨pagemap, generation, heq, -⟩ :=
      s.blockTermination.pagemapResize_eq r (wrap (offset + length))
    rw [hu, heq]
    rfl
  have hpages : (dirty = true ∨ kcopy = false ∧ s.notifyOnEvict = true) →
      ∀ k ∈ List.range' (offset / pageSize) (length / pageSize), k < u.pagemap.length := by
    intro hneeded
    rw [hu]
    exact pages_lt_length hlength hoffset (hok ⟨hcontrol, hlength, hoffset, hstate, hneeded⟩)
  cases hround with
  | notify notified hdirty hkcopy hnotify =>
    refine Bounded.enter (c := .notifying _ _)
      (hgrown.access (hpages (.inr ⟨hkcopy, hevict.symm.trans hnotify⟩))).allowTermination ?_
    intro k hk
    cases hk
  | leave =>
    refine Bounded.enter (c := .notifying _ _) hgrown.allowTermination ?_
    intro k hk
    cases hk
  | keep => exact hgrown.allowTermination
  | write hdirty hretry =>
    have hroom : ∀ k ∈ WriteRequest.pages ⟨offset, length, kcopy, initializing, u.generation⟩,
        k < u.pagemap.length := hpages (.inl hdirty)
    obtain ⟨hbounded, hblocks, hcall, -, hsame⟩ := hgrown.retry hroom hretry
    apply Bounded.enter
    · rw [hblocks]
      exact hbounded
    · rw [hcall, hsame]
      exact hroom

theorem finishPages (h : Bounded n s) (kcopy : Bool) (pagerrs : Nat → Bool)
    (hpages : ∀ k ∈ pages, k < s.pagemap.length) :
    Bounded n (finishPages s kcopy pages pagerrs) := by
  unfold Libpager.finishPages
  dsimp only
  apply Bounded.updatePages
  · refine Bounded.updatePages (s := s.answer _) (h.of_eq rfl rfl (Nat.le_refl _) rfl) ?_
    intro k hk
    exact hpages k (mem_of_mem_filter hk)
  · intro k hk
    rw [Pager.length_updatePages]
    exact hpages k hk

theorem writeDone {w : WriteRequest} {omitted lockList registered : List Nat}
    {pagerrs : Nat → Bool} {r : Realloc} (h : Bounded n s)
    (hi : s.calls[i]? = some (.writing w omitted lockList registered)) :
    Bounded n (writeDone s i w omitted lockList pagerrs r) := by
  have hroom := h.room _ (mem_of_getElem? hi)
  have hgrown := h.pagemapResize r (wrap (w.offset + w.length))
  obtain ⟨pagemap, generation, heq, hlength, -⟩ :=
    s.pagemapResize_eq r (wrap (w.offset + w.length))
  unfold Libpager.writeDone
  dsimp only
  rw [heq] at hgrown ⊢
  have hwritten : ∀ k ∈ w.pages.filter fun k => k ∉ omitted, k < pagemap.length := fun k hk =>
    Nat.lt_of_lt_of_le (hroom k (mem_of_mem_filter hk)) hlength
  have hfinished := hgrown.finishPages w.kcopy pagerrs hwritten
  exact Bounded.leave (c := .writing w omitted lockList registered)
    (hfinished.of_eq rfl rfl (Nat.le_refl _) rfl) hi rfl rfl

theorem dataUnlock {control offset length : Nat} {write : Bool} (h : Bounded 0 s) :
    Bounded 0 (dataUnlock s control offset length write) := by
  have hentered : Bounded 0 (s.enter (.unlocking offset)) := by
    refine Bounded.enter (c := .unlocking offset) h ?_
    intro k hk
    cases hk
  unfold Libpager.dataUnlock
  repeat' split
  all_goals first
    | exact h
    | exact hentered

theorem lockObject {offset size : Nat} {shouldFlush sync : Bool} (h : Bounded 0 s) :
    Bounded 0 (lockObject s offset size shouldFlush sync) := by
  have hentered : ∀ u l, Bounded 0 u → Bounded 0 (u.enter (.locking l)) := by
    intro u l hu
    refine Bounded.enter (c := .locking l) hu ?_
    intro k hk
    cases hk
  unfold Libpager.lockObject
  split
  · exact h
  · split
    · exact h
    · split
      · exact hentered _ _ (h.of_eq rfl rfl (Nat.le_refl _) rfl)
      · exact hentered _ _ (h.of_eq rfl rfl (Nat.le_refl _) rfl)

/-- The pages that are flushed are in the map, or none is looked up. -/
def FlushRoom (s : Pager) (offset size : Nat) (r : Realloc) : Prop :=
  offset / pageSize = 0 ∨ offset / pageSize + size / pageSize ≤ s.pagemap.length ∨
    s.pagemap.length ≤ offset / pageSize ∧ (r = .fails ∨ wrap (offset + size) ≤ offset) ∨
    offset + size < 2 ^ 64 ∧ r ≠ .fails

theorem flush {offset size : Nat} {r : Realloc} (h : Bounded n s)
    (hroom : FlushRoom s offset size r) : Bounded n (flush s offset size r) := by
  have hgrown := h.pagemapResize r (wrap (offset + size))
  unfold Libpager.flush
  dsimp only
  split
  · rename_i hfirst
    apply hgrown.updatePages
    intro k hk
    have hrange := mem_range'_1.mp hk
    rw [Pager.length_pagemapResize] at hfirst hrange ⊢
    rcases hroom with hzero | hin | ⟨hempty, hfails | hwrap⟩ | ⟨hlt, hfails⟩
    · omega
    · split at hrange <;> split <;> omega
    · rw [if_pos hfails] at hfirst
      omega
    · unfold pageSize at *
      split at hfirst <;> omega
    · rw [if_neg hfails, wrap, Nat.mod_eq_of_lt hlt] at hrange ⊢
      unfold pageSize at *
      omega
  · exact hgrown

theorem releaseLock (h : Bounded n s) (lr : LockRequest) : Bounded n (releaseLock s lr) := by
  unfold Libpager.releaseLock
  split
  · exact h.of_eq rfl rfl (Nat.le_refl _) rfl
  · exact h.of_eq rfl rfl (Nat.le_refl _) rfl

theorem lockReturn {l : LockCall} {r : Realloc} (h : Bounded 0 s)
    (hi : s.calls[i]? = some (.locking l))
    (hroom : l.shouldFlush = true → FlushRoom s l.offset l.size r)
    (hs : lockReturn s i l r = some t) : Bounded 0 t := by
  unfold Libpager.lockReturn at hs
  split at hs
  · cases hs
  · split at hs
    · cases hs
    · rename_i lr _ _
      have hreleased := h.releaseLock lr
      have hpagemap : (Libpager.releaseLock s lr).pagemap = s.pagemap := by
        unfold Libpager.releaseLock
        split <;> rfl
      rw [← releaseLock_calls s lr] at hi
      split at hs
      · rename_i hflush
        cases hs
        rw [← flush_calls _ l.offset l.size r] at hi
        refine (hreleased.flush ?_).setCall hi rfl ?_
        · rw [FlushRoom, hpagemap]
          exact hroom hflush
        · intro k hk
          cases hk
      · cases hs
        refine hreleased.setCall hi rfl ?_
        intro k hk
        cases hk

theorem mapCalls {f : Call → Call} (h : Bounded n s) (hblocks : ∀ c, (f c).blocks = c.blocks)
    (hpages : ∀ c, (f c).pages = c.pages) : Bounded n { s with calls := s.calls.map f } := by
  refine ⟨h.inside, ?_, ?_⟩
  · rw [countP_map, show Call.blocks ∘ f = Call.blocks from funext hblocks]
    exact h.noterm
  · intro d hd k hk
    obtain ⟨c, hc, rfl⟩ := mem_map.mp hd
    rw [hpages] at hk
    exact h.room c hc k hk

theorem lockCompleted {control offset length : Nat} (h : Bounded n s) :
    Bounded n (lockCompleted s control offset length) := by
  unfold Libpager.lockCompleted
  split
  · exact h
  · have hmapped := h.mapCalls (f := Call.complete offset length) (fun c => by cases c <;> rfl)
      fun c => by cases c <;> rfl
    dsimp only
    split
    · exact hmapped.of_eq rfl rfl (Nat.le_refl _) rfl
    · exact hmapped

theorem freeStructure (h : Bounded 0 s) (hnoterm : s.noterm = 0) : Bounded 0 (freeStructure s) := by
  have hmapped := h.mapCalls (f := Call.terminate) (fun c => by cases c <;> rfl)
    fun c => by cases c <;> rfl
  refine ⟨h.inside, hmapped.noterm, ?_⟩
  intro c hc k hk
  have hzero : (s.calls.map Call.terminate).countP Call.blocks = 0 := by
    have hcount := hmapped.noterm
    change s.noterm = _ at hcount
    rw [hnoterm] at hcount
    exact hcount.symm
  have hblocks := countP_eq_zero.mp hzero c hc
  rw [Call.pages_eq_nil (Bool.eq_false_iff.mpr hblocks)] at hk
  cases hk

end Bounded

/-- What a call looks up by itself is in the map. -/
def Call.Inside (s : Pager) : Call → Prop
  | .notifying _ (page :: _) => page < s.pagemap.length
  | .refused offset _ | .refusedLoaded offset _ _ _ => offset / pageSize < s.pagemap.length
  | _ => True

/-- The flush of a call stays in the map. -/
def Call.Flushes (s : Pager) (r : Realloc) : Call → Prop
  | .locking l => l.shouldFlush = true → Bounded.FlushRoom s l.offset l.size r
  | _ => True

/-- Growing the map is possible where that goes unchecked, no range wraps, and pages that are looked
up without growing the map before are in the map. -/
def InBounds (s : Pager) : Event → Prop
  | .dataRequest control offset length _ _ => Accepts s control offset length →
      offset + length < 2 ^ 64 ∨ offset / pageSize < s.pagemap.length
  | .doWriteRequest control offset length dirty kcopy _ r =>
      Bounded.ReturnLooks s control offset length dirty kcopy →
        Bounded.ReturnRoom s offset length r
  | .advance i => (s.calls.getD i .done).Inside s
  | .lockReturn i r => (s.calls.getD i .done).Flushes s r
  | .pagerGetError addr r => addr / pageSize < s.pagemap.length ∨
      r = .fails ∧ s.pagemap.length < addr / pageSize / pageSize
  | _ => True

theorem Bounded.advance (h : Bounded 0 s) (hi : s.calls[i]? = some c) (hok : c.Inside s)
    (hs : advance s i c = some t) : Bounded 0 t := by
  have hroom := h.room c (mem_of_getElem? hi)
  have hone : ∀ {page}, page < s.pagemap.length → ∀ k ∈ [page], k < s.pagemap.length := by
    intro page hpage k hk
    rw [mem_singleton.mp hk]
    exact hpage
  have hnone : ∀ {m} k, k ∈ ([] : List Nat) → k < m := by
    intro m k hk
    cases hk
  cases c with
  | supplied offset =>
    cases hs
    have hmarked : Bounded 0 (s.markObjectError offset pageSize none) := by
      apply h.updatePages
      intro k hk
      have hrange := mem_range'_1.mp hk
      have hself : pageSize / pageSize = 1 := rfl
      apply hroom
      rw [show k = offset / pageSize by omega]
      exact mem_singleton_self _
    exact hmarked.leave hi rfl rfl
  | failed offset =>
    cases hs
    exact (h.access hroom).setCall hi rfl hroom
  | failedLoaded offset generation e =>
    cases hs
    refine (h.storePages generation hroom).setCall (c := .failedLoaded offset generation e) ?_ rfl
      hnone
    rw [Pager.calls_storePages]
    exact hi
  | leaving =>
    cases hs
    exact h.leave hi rfl rfl
  | notifying generation pages =>
    cases pages with
    | nil =>
      cases hs
      exact h.setCall hi rfl hnone
    | cons page pages =>
      cases hs
      refine (h.storePages generation (hone hok)).setCall
        (c := .notifying generation (page :: pages)) ?_ rfl hnone
      rw [Pager.calls_storePages]
      exact hi
  | refused offset err =>
    cases hs
    exact (h.access (hone hok)).setCall hi rfl hnone
  | refusedLoaded offset generation err e =>
    cases hs
    refine (h.storePages generation (hone hok)).setCall
      (c := .refusedLoaded offset generation err e) ?_ rfl hnone
    rw [Pager.calls_storePages]
    exact hi
  | terminating =>
    simp only [Libpager.advance] at hs
    split at hs
    · rename_i hnoterm
      cases hs
      refine (h.freeStructure hnoterm).setCall (c := .terminating) ?_ rfl hnone
      show (s.calls.map Call.terminate)[i]? = some .terminating
      rw [List.getElem?_map, hi]
      rfl
    · cases hs
  | _ => cases hs

theorem Bounded.step {e : Event} (h : Bounded 0 s) (hok : InBounds s e) (hs : step s e = some t) :
    Bounded 0 t := by
  have hnone : ∀ {m} k, k ∈ ([] : List Nat) → k < m := by
    intro m k hk
    cases hk
  cases e with
  | dataRequest control offset length write r =>
    cases hs
    exact h.dataRequest hok
  | pageIn i err =>
    simp only [Libpager.step] at hs
    split at hs
    · rename_i offset doerror hi
      cases hs
      have hroom := h.room _ (mem_of_getElem? hi)
      have hanswered : ∀ answers, Bounded 0 (s.answer answers) :=
        fun _ => h.of_eq rfl rfl (Nat.le_refl _) rfl
      unfold pageIn
      dsimp only
      split
      · exact (hanswered _).setCall hi rfl hroom
      · exact (hanswered _).setCall hi rfl hroom
    · cases hs
  | doWriteRequest control offset length dirty kcopy initializing r => exact h.doWriteRequest hok hs
  | retry i stale =>
    simp only [Libpager.step] at hs
    split at hs
    · rename_i w hi
      split at hs
      · rename_i u call hretry
        cases hs
        have hroom := h.room _ (mem_of_getElem? hi)
        obtain ⟨hbounded, hblocks, hcall, hcalls, hsame⟩ := h.retry hroom hretry
        rw [← hcalls] at hi
        refine hbounded.setCall hi hblocks ?_
        rw [hcall, hsame]
        exact hroom
      · cases hs
    · cases hs
  | writeDone i pagerrs r =>
    simp only [Libpager.step] at hs
    split at hs
    · rename_i hi
      cases hs
      exact h.writeDone hi
    · cases hs
  | dataUnlock control offset length write =>
    cases hs
    exact h.dataUnlock
  | unlocked i err =>
    simp only [Libpager.step] at hs
    split at hs
    · rename_i hi
      split at hs
      · cases hs
        exact h.setCall hi rfl hnone
      · cases hs
        exact h.setCall hi rfl hnone
    · cases hs
  | advance i =>
    simp only [Libpager.step] at hs
    split at hs
    · rename_i hi
      rw [InBounds, getD_eq_getElem?_getD, hi] at hok
      exact h.advance hi hok hs
    · cases hs
  | lockObject offset size shouldFlush sync =>
    cases hs
    exact h.lockObject
  | lockReturn i r =>
    simp only [Libpager.step] at hs
    split at hs
    · rename_i hi
      rw [InBounds, getD_eq_getElem?_getD, hi] at hok
      exact h.lockReturn hi hok hs
    · cases hs
  | lockCompleted control offset length =>
    cases hs
    exact h.lockCompleted
  | objectTerminate control name =>
    cases hs
    unfold objectTerminate
    split
    · exact h
    · split
      · exact h
      · exact Bounded.enter (c := .terminating) h hnone
  | objectInit control name pagesize =>
    cases hs
    unfold objectInit
    split
    · exact h
    · split
      · exact h
      · exact h.of_eq rfl rfl (Nat.le_refl _) rfl
  | shutdown =>
    cases hs
    exact h.of_eq rfl rfl (Nat.le_refl _) rfl
  | pagerGetError addr r =>
    cases hs
    have hgrown := h.pagemapResize r (addr / pageSize)
    unfold pagerGetError
    dsimp only
    split
    · exact hgrown
    · rename_i hsuccess
      apply hgrown.access
      intro k hk
      rw [mem_singleton.mp hk, Pager.length_pagemapResize]
      rcases hok with hlt | ⟨hfails, hlt⟩
      · split <;> omega
      · rw [hfails, Pager.pagemapResize] at hsuccess
        simp only [hlt, if_true, not_true_eq_false] at hsuccess

theorem bounded_create (notifyOnEvict : Bool) : Bounded 0 (.create notifyOnEvict) := by
  constructor
  · intro a ha
    cases ha
  · rfl
  · intro c hc
    cases hc

/-- Every access to the page map has an index that is smaller than the size of the map. -/
theorem pagemap_accesses_inside {notifyOnEvict : Bool}
    (h : Reach step InBounds (.create notifyOnEvict) s) : ∀ a ∈ s.accesses, a.1 < a.2 :=
  (Reach.invariant (Bounded 0) (bounded_create notifyOnEvict)
    (fun _ _ _ hinv hok hs => hinv.step hok hs) h).inside

theorem pagemap_accesses_inside_request :
    ∃ s, Reach step InBounds (.create false) s ∧ s.accesses = [(0, 1)] ∧
      ∀ a ∈ s.accesses, a.1 < a.2 := by
  have hinit : Reach step InBounds (.create false) (objectInit (.create false) 1 2 pageSize) :=
    .step (.objectInit 1 2 pageSize) .start trivial rfl
  have hrequest : Reach step InBounds (.create false)
      (dataRequest (objectInit (.create false) 1 2 pageSize) 1 0 pageSize false .moves) :=
    .step (.dataRequest 1 0 pageSize false .moves) hinit (fun _ => .inl (by decide)) rfl
  exact ⟨_, hrequest, by decide, pagemap_accesses_inside hrequest⟩

/-- `pager_get_error` grows the map by the number of the page where it should give the offset, and
then looks up the second page of an empty map. -/
theorem pagemap_access_outside :
    ∃ s, Reach step (fun _ _ => True) (.create false) s ∧ (1, 0) ∈ s.accesses := by
  have hrun : (runLabels step (.create false)
      [.objectInit 1 2 pageSize, .pagerGetError pageSize .moves]).map
        (fun s => decide ((1, 0) ∈ s.accesses)) = some true := by decide
  obtain ⟨s, hs, hshape⟩ := Option.map_eq_some_iff.mp hrun
  exact ⟨s, Reach.labels _ .start (by decide) hs, of_decide_eq_true hshape⟩

end Hurd.Libpager
