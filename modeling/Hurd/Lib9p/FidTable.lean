import Hurd.Lib9p.Exchange
import Mathlib.Data.List.InsertIdx
import Mathlib.Data.List.Nodup

/-!
# The table of file identifiers

A number is reserved before the structure of its identifier is allocated, and the structure is freed
before the number is.
-/

namespace Hurd.Lib9p

open Function List Option

/-- The number in the structure at an address, if there is one. -/
def Connection.number (conn : Connection) (addr : Nat) : Option Nat := (conn.fids addr).map Fid.fid

/-- The numbers that calls in progress have reserved. -/
def System.reserved (s : System) : List Nat := s.pending.map Pending.num

section Owners

inductive OwnerStep (s s' : System) : Prop
  | same : s'.conn.fidTable = s.conn.fidTable → s'.conn.number = s.conn.number →
      s'.reserved = s.reserved → s'.live = s.live → OwnerStep s s'
  | reserve (num : Nat) : s.conn.fidTable num = 0 → 0 < num → num < maxFid →
      s'.conn.fidTable = update s.conn.fidTable num marker →
      s'.conn.number = s.conn.number → s'.reserved = s.reserved ++ [num] → s'.live = s.live →
      OwnerStep s s'
  | release (i num : Nat) : s.reserved[i]? = some num →
      s'.conn.fidTable = update s.conn.fidTable num 0 → s'.conn.number = s.conn.number →
      s'.reserved = s.reserved.eraseIdx i → s'.live = s.live → OwnerStep s s'
  | fill (i num addr : Nat) : s.reserved[i]? = some num → marker < addr →
      s.conn.number addr = none → s'.conn.fidTable = update s.conn.fidTable num addr →
      s'.conn.number = update s.conn.number addr (some num) →
      s'.reserved = s.reserved.eraseIdx i → s'.live = addr :: s.live → OwnerStep s s'
  | clunk (addr num : Nat) : s.conn.number addr = some num →
      s'.conn.fidTable = update s.conn.fidTable num 0 →
      s'.conn.number = update s.conn.number addr none →
      s'.reserved = s.reserved → s'.live = s.live.erase addr → OwnerStep s s'

/-- Every entry in use has its owner, and every owner its entry. -/
structure Owned (s : System) : Prop where
  entry : ∀ num addr, s.conn.fidTable num = addr → marker < addr → s.conn.number addr = some num
  owner : ∀ addr num, s.conn.number addr = some num → s.conn.fidTable num = addr ∧ marker < addr
  reserved : ∀ num, s.conn.fidTable num = marker ↔ num ∈ s.reserved
  once : s.reserved.Nodup
  range : ∀ num, s.conn.fidTable num ≠ 0 → 0 < num ∧ num < maxFid
  live : ∀ addr, addr ∈ s.live ↔ (s.conn.number addr).isSome
  nodup : s.live.Nodup

theorem mem_eraseIdx_iff {l : List Nat} (hl : l.Nodup) {i x y : Nat} (hi : l[i]? = some x) :
    y ∈ l.eraseIdx i ↔ y ∈ l ∧ y ≠ x := by
  obtain ⟨hlt, hx⟩ := List.getElem?_eq_some_iff.mp hi
  rw [← hl.erase_getElem i hlt, hx, hl.mem_erase_iff, and_comm]

variable {s s' : System}

theorem Owned.reserved_get (h : Owned s) {i num : Nat} (hi : s.reserved[i]? = some num) :
    s.conn.fidTable num = marker :=
  (h.reserved num).mpr (mem_of_getElem? hi)

theorem owned_start : Owned System.start where
  entry num addr h hlt := by
    simp only [System.start, p9Connect] at h
    subst h
    cases hlt
  owner addr num h := by cases h
  reserved num := by simp [System.start, p9Connect, System.reserved, marker]
  once := nodup_nil
  range num h := absurd rfl h
  live addr := by simp [System.start, p9Connect, Connection.number]
  nodup := nodup_nil

theorem Owned.same (h : Owned s) (htable : s'.conn.fidTable = s.conn.fidTable)
    (hnumber : s'.conn.number = s.conn.number) (hreserved : s'.reserved = s.reserved)
    (hlive : s'.live = s.live) : Owned s' := by
  constructor
  · rw [htable, hnumber]
    exact h.entry
  · rw [htable, hnumber]
    exact h.owner
  · rw [htable, hreserved]
    exact h.reserved
  · rw [hreserved]
    exact h.once
  · rw [htable]
    exact h.range
  · rw [hlive, hnumber]
    exact h.live
  · rw [hlive]
    exact h.nodup

theorem Owned.mark (h : Owned s) {num v : Nat} (hold : s.conn.fidTable num ≤ marker)
    (hv : v ≤ marker) (hrange : v ≠ 0 → 0 < num ∧ num < maxFid)
    (htable : s'.conn.fidTable = update s.conn.fidTable num v)
    (hnumber : s'.conn.number = s.conn.number)
    (hreserved : ∀ n, v = marker ∧ n = num ∨ n ≠ num ∧ n ∈ s.reserved ↔ n ∈ s'.reserved)
    (honce : s'.reserved.Nodup) (hlive : s'.live = s.live) : Owned s' := by
  constructor
  · intro n addr hentry haddr
    rw [htable] at hentry
    rw [hnumber]
    by_cases hn : n = num
    · rw [hn, update_self] at hentry
      omega
    · rw [update_of_ne hn] at hentry
      exact h.entry n addr hentry haddr
  · intro addr n howner
    rw [hnumber] at howner
    obtain ⟨hentry, haddr⟩ := h.owner addr n howner
    have hn : n ≠ num := by
      intro hn
      rw [hn] at hentry
      omega
    rw [htable, update_of_ne hn]
    exact ⟨hentry, haddr⟩
  · intro n
    rw [htable, ← hreserved]
    by_cases hn : n = num
    · simp [hn]
    · rw [update_of_ne hn, h.reserved]
      simp [hn]
  · exact honce
  · intro n hne
    by_cases hn : n = num
    · rw [htable, hn, update_self] at hne
      exact hn ▸ hrange hne
    · rw [htable, update_of_ne hn] at hne
      exact h.range n hne
  · rw [hlive, hnumber]
    exact h.live
  · rw [hlive]
    exact h.nodup

theorem Owned.reserve (h : Owned s) {num : Nat} (hfree : s.conn.fidTable num = 0) (hpos : 0 < num)
    (hlt : num < maxFid) (htable : s'.conn.fidTable = update s.conn.fidTable num marker)
    (hnumber : s'.conn.number = s.conn.number) (hreserved : s'.reserved = s.reserved ++ [num])
    (hlive : s'.live = s.live) : Owned s' := by
  have hnew : num ∉ s.reserved := by
    intro hmem
    rw [← h.reserved, hfree] at hmem
    cases hmem
  refine h.mark (by omega) (Nat.le_refl _) (fun _ => ⟨hpos, hlt⟩) htable hnumber ?_ ?_ hlive
  · intro n
    rw [hreserved, mem_append, mem_singleton]
    by_cases hn : n = num
    · simp [hn]
    · simp [hn]
  · rw [hreserved]
    exact nodup_append.mpr ⟨h.once, nodup_singleton num, by
      intro a ha b hb hab
      cases mem_singleton.mp hb
      exact hnew (hab ▸ ha)⟩

theorem Owned.release (h : Owned s) {i num : Nat} (hi : s.reserved[i]? = some num)
    (htable : s'.conn.fidTable = update s.conn.fidTable num 0)
    (hnumber : s'.conn.number = s.conn.number) (hreserved : s'.reserved = s.reserved.eraseIdx i)
    (hlive : s'.live = s.live) : Owned s' := by
  refine h.mark (Nat.le_of_eq (h.reserved_get hi)) (Nat.zero_le _) (fun hne => absurd rfl hne)
    htable hnumber ?_ ?_ hlive
  · intro n
    rw [hreserved, mem_eraseIdx_iff h.once hi]
    simp [marker, and_comm]
  · rw [hreserved]
    exact h.once.eraseIdx i

theorem Owned.fill (h : Owned s) {i num addr : Nat} (hi : s.reserved[i]? = some num)
    (haddr : marker < addr) (hnone : s.conn.number addr = none)
    (htable : s'.conn.fidTable = update s.conn.fidTable num addr)
    (hnumber : s'.conn.number = update s.conn.number addr (some num))
    (hreserved : s'.reserved = s.reserved.eraseIdx i) (hlive : s'.live = addr :: s.live) :
    Owned s' := by
  have hmark := h.reserved_get hi
  constructor
  · intro n a hentry ha
    rw [htable] at hentry
    rw [hnumber]
    by_cases hn : n = num
    · rw [hn, update_self] at hentry
      rw [← hentry, update_self, hn]
    · rw [update_of_ne hn] at hentry
      have howner := h.entry n a hentry ha
      have hne : a ≠ addr := by
        intro he
        rw [he, hnone] at howner
        cases howner
      rw [update_of_ne hne, howner]
  · intro a n howner
    rw [hnumber] at howner
    by_cases ha : a = addr
    · rw [ha, update_self] at howner
      cases howner
      rw [ha, htable, update_self]
      exact ⟨rfl, haddr⟩
    · rw [update_of_ne ha] at howner
      obtain ⟨hentry, hlt⟩ := h.owner a n howner
      have hn : n ≠ num := by
        intro hn
        rw [hn, hmark] at hentry
        omega
      rw [htable, update_of_ne hn]
      exact ⟨hentry, hlt⟩
  · intro n
    rw [htable, hreserved, mem_eraseIdx_iff h.once hi]
    by_cases hn : n = num
    · rw [hn, update_self]
      have hne : addr ≠ marker := Nat.ne_of_gt haddr
      simp [hne]
    · rw [update_of_ne hn, h.reserved]
      simp [hn]
  · rw [hreserved]
    exact h.once.eraseIdx i
  · intro n hne
    by_cases hn : n = num
    · rw [hn]
      refine h.range num ?_
      rw [hmark]
      decide
    · rw [htable, update_of_ne hn] at hne
      exact h.range n hne
  · intro a
    rw [hlive, hnumber, mem_cons]
    by_cases ha : a = addr
    · simp [ha]
    · rw [update_of_ne ha, ← h.live]
      simp [ha]
  · rw [hlive]
    refine nodup_cons.mpr ⟨?_, h.nodup⟩
    rw [h.live, hnone]
    simp

theorem Owned.clunk (h : Owned s) {addr num : Nat} (howner : s.conn.number addr = some num)
    (htable : s'.conn.fidTable = update s.conn.fidTable num 0)
    (hnumber : s'.conn.number = update s.conn.number addr none)
    (hreserved : s'.reserved = s.reserved) (hlive : s'.live = s.live.erase addr) : Owned s' := by
  obtain ⟨hentry, haddr⟩ := h.owner addr num howner
  constructor
  · intro n a hn ha
    rw [htable] at hn
    rw [hnumber]
    by_cases hnum : n = num
    · rw [hnum, update_self] at hn
      omega
    · rw [update_of_ne hnum] at hn
      have hother := h.entry n a hn ha
      have hne : a ≠ addr := by
        intro he
        rw [he, howner] at hother
        exact hnum (some.inj hother).symm
      rw [update_of_ne hne, hother]
  · intro a n hn
    rw [hnumber] at hn
    by_cases ha : a = addr
    · rw [ha, update_self] at hn
      cases hn
    · rw [update_of_ne ha] at hn
      obtain ⟨hother, hlt⟩ := h.owner a n hn
      have hnum : n ≠ num := by
        intro he
        rw [he, hentry] at hother
        exact ha hother.symm
      rw [htable, update_of_ne hnum]
      exact ⟨hother, hlt⟩
  · intro n
    rw [htable, hreserved]
    by_cases hn : n = num
    · have hnot : num ∉ s.reserved := by
        rw [← h.reserved, hentry]
        exact Nat.ne_of_gt haddr
      simp [hn, hnot, marker]
    · rw [update_of_ne hn, h.reserved]
  · rw [hreserved]
    exact h.once
  · intro n hne
    by_cases hn : n = num
    · rw [htable, hn, update_self] at hne
      exact absurd rfl hne
    · rw [htable, update_of_ne hn] at hne
      exact h.range n hne
  · intro a
    rw [hlive, hnumber, h.nodup.mem_erase_iff]
    by_cases ha : a = addr
    · simp [ha]
    · rw [update_of_ne ha, ← h.live]
      simp [ha]
  · rw [hlive]
    exact h.nodup.erase addr

theorem OwnerStep.owned (h : Owned s) (hstep : OwnerStep s s') : Owned s' := by
  cases hstep with
  | same htable hnumber hreserved hlive => exact h.same htable hnumber hreserved hlive
  | reserve num hfree hpos hlt htable hnumber hreserved hlive =>
    exact h.reserve hfree hpos hlt htable hnumber hreserved hlive
  | release i num hi htable hnumber hreserved hlive =>
    exact h.release hi htable hnumber hreserved hlive
  | fill i num addr hi haddr hnone htable hnumber hreserved hlive =>
    exact h.fill hi haddr hnone htable hnumber hreserved hlive
  | clunk addr num howner htable hnumber hreserved hlive =>
    exact h.clunk howner htable hnumber hreserved hlive

end Owners

section Operations

variable {conn conn' : Connection} {env : Env} {num addr : Nat}

structure SameTable (conn conn' : Connection) : Prop where
  fidTable : conn'.fidTable = conn.fidTable
  fids : conn'.fids = conn.fids

theorem SameTable.refl (conn : Connection) : SameTable conn conn := ⟨rfl, rfl⟩

theorem SameTable.number (h : SameTable conn conn') : conn'.number = conn.number := by
  funext a
  simp [Connection.number, h.fids]

theorem sameTable_p9Rpc (env : Env) (m : Message) : SameTable conn (p9Rpc env m conn).2 := by
  simp only [p9Rpc]
  split
  · split <;> exact ⟨rfl, rfl⟩
  · exact ⟨rfl, rfl⟩

theorem sameTable_transact {α : Type} {r : Request} {decode : Message → Except Errno α}
    {p : Connection × Except Errno α} (h : transact env r decode conn = .ok p) :
    SameTable conn p.1 := by
  cases hmem : env.tmsg with
  | false =>
    simp only [transact, hmem, Bool.false_eq_true, not_false_eq_true, if_true] at h
    cases h
    exact .refl conn
  | true =>
    simp only [transact, hmem, not_true, if_false] at h
    cases hbuild : r.build (p9AllocTag conn).1 with
    | error e =>
      cases e with
      | errno e =>
        simp only [hbuild] at h
        cases h
        exact ⟨rfl, rfl⟩
      | fault f =>
        simp only [hbuild] at h
        cases h
    | ok m =>
      have hsame : SameTable (p9AllocTag conn).2 (p9Rpc env m (p9AllocTag conn).2).2 :=
        sameTable_p9Rpc env m
      cases hrpc : p9Rpc env m (p9AllocTag conn).2 with
      | mk reply conn₁ =>
        simp only [hbuild, hrpc] at h
        rw [hrpc] at hsame
        cases reply with
        | none =>
          cases h
          exact ⟨hsame.fidTable, hsame.fids⟩
        | some rmsg =>
          cases h
          exact ⟨hsame.fidTable, hsame.fids⟩

theorem findFree_some {table : Nat → Nat} {n i j : Nat} (h : findFree table n i = some j) :
    table j = 0 ∧ i ≤ j ∧ j < i + n := by
  induction n generalizing i with
  | zero => cases h
  | succ n ih =>
    rw [findFree] at h
    by_cases hfree : table i = 0
    · rw [if_pos hfree] at h
      have he : i = j := some.inj h
      exact ⟨he ▸ hfree, by omega, by omega⟩
    · rw [if_neg hfree] at h
      obtain ⟨hj, hle, hlt⟩ := ih h
      exact ⟨hj, by omega, by omega⟩

theorem p9AllocFid_cases (conn : Connection) :
    p9AllocFid conn = (nofid, conn) ∨
      ∃ num, conn.fidTable num = 0 ∧ 0 < num ∧ num < maxFid ∧ num ≠ nofid ∧
        p9AllocFid conn =
          (num, { conn with fidTable := update conn.fidTable num marker }) := by
  unfold p9AllocFid
  cases hfind : findFree conn.fidTable (maxFid - 1) 1 with
  | none => exact .inl rfl
  | some num =>
    obtain ⟨hfree, hpos, hlt⟩ := findFree_some hfind
    have hmax : 1 + (maxFid - 1) = maxFid := rfl
    have hno : maxFid ≤ nofid := by decide
    exact .inr ⟨num, hfree, hpos, by omega, by omega, rfl⟩

theorem p9FreeFid_marker (hlt : num < maxFid) (hmark : conn.fidTable num = marker) :
    p9FreeFid num conn = .ok { conn with fidTable := update conn.fidTable num 0 } := by
  have hle : ¬ num ≥ maxFid := Nat.not_le.mpr hlt
  have hne : marker ≠ 0 := by decide
  simp [p9FreeFid, hle, hmark, hne, Except.map]

theorem p9FreeFid_fid {f : Fid} (hlt : num < maxFid) (hentry : conn.fidTable num = addr)
    (haddr : marker < addr) (hfid : conn.fids addr = some f) :
    p9FreeFid num conn = .ok { conn with
      fids := update conn.fids addr none
      fidTable := update conn.fidTable num 0 } := by
  have hle : ¬ num ≥ maxFid := Nat.not_le.mpr hlt
  have hne : addr ≠ marker := Nat.ne_of_gt haddr
  have hpos : addr ≠ 0 := Nat.ne_of_gt (Nat.lt_of_le_of_lt (Nat.zero_le marker) haddr)
  simp [p9FreeFid, hle, hentry, hne, hpos, free, hfid, Except.map]

end Operations

section Steps

variable {s s' : System} {env : Env}

theorem System.reserved_getElem? {i : Nat} {c : Pending} (h : s.pending[i]? = some c) :
    s.reserved[i]? = some c.num := by
  simp [System.reserved, h]

theorem started_owner {c : Nat → Pending} (hc : ∀ num, (c num).num = num) :
    OwnerStep s (s.started ((p9AllocFid s.conn).2,
      if (p9AllocFid s.conn).1 = nofid then .error .emfile else .ok (c (p9AllocFid s.conn).1))) := by
  rcases p9AllocFid_cases s.conn with hnone | ⟨num, hfree, hpos, hlt, hne, hsome⟩
  · rw [hnone]
    refine .same rfl rfl ?_ rfl
    simp [System.started, System.reserved, Except.toOption]
  · rw [hsome]
    refine .reserve num hfree hpos hlt rfl rfl ?_ rfl
    simp [System.started, System.reserved, Except.toOption, hne, hc]

theorem startAttach_owner (uname aname : Option Str) :
    OwnerStep s (s.started (startAttach uname aname s.conn)) := by
  cases uname with
  | none =>
    refine .same rfl rfl ?_ rfl
    simp [startAttach, System.started, System.reserved, Except.toOption]
  | some uname => exact started_owner (c := fun num => .attach num uname aname) fun _ => rfl

theorem startWalk_owner (fid : Nat) (names : Option (List Str)) :
    OwnerStep s (s.started (startWalk fid names s.conn)) := by
  have hnone : ∀ e, OwnerStep s (s.started (s.conn, .error e)) := by
    intro e
    refine .same rfl rfl ?_ rfl
    simp [System.started, System.reserved, Except.toOption]
  cases names with
  | none => exact hnone .einval
  | some names =>
    by_cases hbad : fid = 0 ∨ names.length > 16
    · simp only [startWalk, if_pos hbad]
      exact hnone .einval
    · simp only [startWalk, if_neg hbad]
      exact started_owner (c := fun num => .walk num fid names) fun _ => rfl

/-- A call that has a number fills its entry or gives the number back. -/
theorem finishWith_owner (h : Owned s) {i : Nat} {c : Pending} (hi : s.pending[i]? = some c)
    {exchange : Connection → Except Fault (Connection × Except Errno Qid)}
    (hsame : ∀ conn p, exchange conn = .ok p → SameTable conn p.1)
    {p : Connection × Except Errno Result} (hrun : finishWith env c.num exchange s.conn = .ok p) :
    OwnerStep s (({ s with pending := s.pending.eraseIdx i } : System).returned s.live p) := by
  have hget := System.reserved_getElem? hi
  have hmark := h.reserved_get hget
  have hlt : c.num < maxFid := (h.range c.num (by rw [hmark]; decide)).2
  have hrest : (s.pending.eraseIdx i).map Pending.num = s.reserved.eraseIdx i :=
    (eraseIdx_map Pending.num s.pending i).symm
  cases halloc : allocFid env c.num s.conn with
  | none =>
    simp only [finishWith, halloc, p9FreeFid_marker hlt hmark] at hrun
    cases hrun
    exact .release i c.num hget rfl rfl hrest rfl
  | some conn₁ =>
    simp only [finishWith, halloc] at hrun
    obtain ⟨⟨conn₂, res⟩, hexchange, hsettle⟩ := exceptBind_eq_ok.mp hrun
    have hunchanged : SameTable conn₁ conn₂ := hsame conn₁ _ hexchange
    by_cases hfresh : env.fid > marker ∧ s.conn.fids env.fid = none
    · rw [allocFid, if_pos hfresh] at halloc
      cases halloc
      have htable : conn₂.fidTable = s.conn.fidTable := hunchanged.fidTable
      have hfids : conn₂.fids = update s.conn.fids env.fid
        (some { fid := c.num, qid := ⟨0, 0, 0⟩, mode := 0, opened := false }) := hunchanged.fids
      have hnone : s.conn.number env.fid = none := by simp [Connection.number, hfresh.2]
      cases res with
      | ok qid =>
        cases hsettle
        refine .fill i c.num env.fid hget hfresh.1 hnone ?_ ?_ hrest rfl
        · simp only [System.returned, htable]
        · funext a
          by_cases ha : a = env.fid
          · simp [Connection.number, System.returned, ha]
          · simp [Connection.number, System.returned, ha, hfids]
      | error e =>
        have hfree : free env.fid conn₂ =
            .ok { conn₂ with fids := update conn₂.fids env.fid none } := by
          simp [free, hfids]
        have hmark₂ : conn₂.fidTable c.num = marker := by rw [htable, hmark]
        have hback : p9FreeFid c.num
            { conn₂ with fids := update conn₂.fids env.fid none } = _ :=
          p9FreeFid_marker hlt hmark₂
        simp only [settle, hfree, Except.bind, hback, Except.map] at hsettle
        cases hsettle
        refine .release i c.num hget ?_ ?_ hrest rfl
        · simp only [System.returned, htable]
        · funext a
          by_cases ha : a = env.fid
          · simp [Connection.number, System.returned, ha, hfresh.2]
          · simp [Connection.number, System.returned, ha, hfids]
    · rw [allocFid, if_neg hfresh] at halloc
      cases halloc

theorem returned_owner {p : Connection × Except Errno Result}
    (htable : p.1.fidTable = s.conn.fidTable) (hnumber : p.1.number = s.conn.number)
    (hres : ∀ addr, p.2 ≠ .ok (.fid addr)) : OwnerStep s (s.returned s.live p) := by
  refine .same htable hnumber rfl ?_
  obtain ⟨conn, res⟩ := p
  cases res with
  | error e => rfl
  | ok r =>
    cases r with
    | fid addr => exact absurd rfl (hres addr)
    | status => rfl
    | data bytes => rfl
    | count n => rfl

theorem p9Version_owner {str : Option Str} {msize : UInt32} {p : Connection × Except Errno Result}
    (h : p9Version env str msize s.conn = .ok p) : OwnerStep s (s.returned s.live p) := by
  cases str with
  | none =>
    cases h
    exact returned_owner rfl rfl (by simp)
  | some v =>
    obtain ⟨⟨conn, res⟩, hrun, rfl⟩ := exceptMap_eq_ok.mp h
    have hsame : SameTable s.conn conn := sameTable_transact hrun
    cases res with
    | ok q => exact returned_owner hsame.fidTable hsame.number (by simp)
    | error e => exact returned_owner hsame.fidTable hsame.number (by simp)

theorem p9Open_owner {fid : Nat} {mode : UInt8} {p : Connection × Except Errno Result}
    (h : p9Open env fid mode s.conn = .ok p) : OwnerStep s (s.returned s.live p) := by
  by_cases hzero : fid = 0
  · simp only [p9Open, if_pos hzero] at h
    cases h
    exact returned_owner rfl rfl (by simp)
  · simp only [p9Open, if_neg hzero] at h
    cases hfid : s.conn.fids fid with
    | none => simp [hfid] at h
    | some f =>
      simp only [hfid] at h
      cases hopen : f.opened with
      | true =>
        simp only [hopen, if_true] at h
        cases h
        exact returned_owner rfl rfl (by simp)
      | false =>
        simp only [hopen, Bool.false_eq_true, if_false] at h
        obtain ⟨⟨conn, res⟩, hrun, rfl⟩ := exceptMap_eq_ok.mp h
        have hsame : SameTable s.conn conn := sameTable_transact hrun
        cases res with
        | ok qid =>
          refine returned_owner hsame.fidTable ?_ (by simp)
          -- What is written to the structure is not its number.
          funext a
          by_cases ha : a = fid
          · simp [Connection.number, ha, hfid]
          · simp [Connection.number, ha, hsame.fids]
        | error e => exact returned_owner hsame.fidTable hsame.number (by simp)

theorem mapped_owner {α : Type} {r : Request} {decode : Message → Except Errno α} {f : α → Result}
    (hf : ∀ a addr, f a ≠ .fid addr) {p : Connection × Except Errno Result}
    (h : (transact env r decode s.conn).map (fun p => (p.1, p.2.map f)) = .ok p) :
    OwnerStep s (s.returned s.live p) := by
  obtain ⟨⟨conn, res⟩, hrun, rfl⟩ := exceptMap_eq_ok.mp h
  have hsame : SameTable s.conn conn := sameTable_transact hrun
  refine returned_owner hsame.fidTable hsame.number ?_
  cases res with
  | ok a => simpa [Except.map] using hf a
  | error e => simp [Except.map]

theorem p9Read_owner {fid : Nat} {buf : Bool} {count offset : Nat}
    {p : Connection × Except Errno Result} (h : p9Read env fid buf count offset s.conn = .ok p) :
    OwnerStep s (s.returned s.live p) := by
  by_cases harg : fid = 0 ∨ buf = false
  · simp only [p9Read, if_pos harg] at h
    cases h
    exact returned_owner rfl rfl (by simp)
  · simp only [p9Read, if_neg harg] at h
    cases hfid : s.conn.fids fid with
    | none => simp [hfid] at h
    | some f =>
      simp only [hfid] at h
      cases hopen : f.opened with
      | false =>
        simp only [hopen, Bool.false_eq_true, not_false_eq_true, if_true] at h
        cases h
        exact returned_owner rfl rfl (by simp)
      | true =>
        simp only [hopen, not_true, if_false] at h
        exact mapped_owner (by simp) h

theorem p9Write_owner {fid : Nat} {buf : Option (List UInt8)} {offset : Nat}
    {p : Connection × Except Errno Result} (h : p9Write env fid buf offset s.conn = .ok p) :
    OwnerStep s (s.returned s.live p) := by
  cases buf with
  | none =>
    cases h
    exact returned_owner rfl rfl (by simp)
  | some buf =>
    by_cases hzero : fid = 0
    · simp only [p9Write, if_pos hzero] at h
      cases h
      exact returned_owner rfl rfl (by simp)
    · simp only [p9Write, if_neg hzero] at h
      cases hfid : s.conn.fids fid with
      | none => simp [hfid] at h
      | some f =>
        simp only [hfid] at h
        cases hopen : f.opened with
        | false =>
          simp only [hopen, Bool.false_eq_true, not_false_eq_true, if_true] at h
          cases h
          exact returned_owner rfl rfl (by simp)
        | true =>
          simp only [hopen, not_true, if_false] at h
          exact mapped_owner (by simp) h

theorem p9Clunk_owner (hs : Owned s) {fid : Nat} {p : Connection × Except Errno Result}
    (h : p9Clunk env fid s.conn = .ok p) :
    OwnerStep s (s.returned (if env.tmsg then s.live.erase fid else s.live) p) := by
  by_cases hzero : fid = 0
  · simp only [p9Clunk, if_pos hzero] at h
    cases h
    have hnot : fid ∉ s.live := by
      intro hmem
      obtain ⟨num, hnum⟩ := isSome_iff_exists.mp ((hs.live fid).mp hmem)
      have hlt := (hs.owner fid num hnum).2
      rw [hzero] at hlt
      cases hlt
    refine .same rfl rfl rfl ?_
    simp [System.returned, erase_of_not_mem hnot]
  · simp only [p9Clunk, if_neg hzero] at h
    cases hmem : env.tmsg with
    | false =>
      simp only [hmem, Bool.false_eq_true, not_false_eq_true, if_true] at h
      cases h
      exact .same rfl rfl rfl rfl
    | true =>
      simp only [hmem, not_true, if_false] at h
      cases hfid : s.conn.fids fid with
      | none => simp [hfid] at h
      | some f =>
        simp only [hfid] at h
        obtain ⟨⟨conn, res⟩, hrun, hfree⟩ := exceptBind_eq_ok.mp h
        have hsame : SameTable s.conn conn := sameTable_transact hrun
        have hnumber : s.conn.number fid = some f.fid := by simp [Connection.number, hfid]
        obtain ⟨hentry, haddr⟩ := hs.owner fid f.fid hnumber
        have hrange := hs.range f.fid (by rw [hentry]; omega)
        have hgone : p9FreeFid f.fid conn = _ :=
          p9FreeFid_fid hrange.2 (by rw [hsame.fidTable, hentry]) haddr (by rw [hsame.fids, hfid])
        simp only [hgone, Except.map] at hfree
        cases hfree
        refine .clunk fid f.fid hnumber ?_ ?_ rfl ?_
        · simp only [System.returned, hsame.fidTable]
        · funext a
          by_cases ha : a = fid
          · simp [Connection.number, System.returned, ha]
          · simp [Connection.number, System.returned, ha, hsame.fids]
        · cases res <;> rfl

theorem eventStep_owner (h : Owned s) {e : Event} (hstep : systemStep s e = some s') :
    OwnerStep s s' := by
  have hok : eventStep s e = .ok s' := by
    cases hres : eventStep s e with
    | ok t => simpa [systemStep, hres, Except.toOption] using hstep
    | error f => simp [systemStep, hres, Except.toOption] at hstep
  cases e with
  | attach uname aname =>
    cases hok
    exact startAttach_owner uname aname
  | walk fid names =>
    cases hok
    exact startWalk_owner fid names
  | finish i env =>
    simp only [eventStep] at hok
    cases hi : s.pending[i]? with
    | none =>
      simp only [hi] at hok
      cases hok
      exact .same rfl rfl rfl rfl
    | some c =>
      simp only [hi] at hok
      obtain ⟨p, hrun, rfl⟩ := exceptMap_eq_ok.mp hok
      cases c with
      | attach num uname aname =>
        exact finishWith_owner h hi (fun _ _ hx => sameTable_transact hx) hrun
      | walk num fid names =>
        refine finishWith_owner h hi ?_ hrun
        intro conn p hx
        cases hfid : conn.fids fid with
        | none => simp [hfid] at hx
        | some f =>
          simp only [hfid] at hx
          exact sameTable_transact hx
  | version env str msize =>
    obtain ⟨p, hrun, rfl⟩ := exceptMap_eq_ok.mp hok
    exact p9Version_owner hrun
  | openFid env fid mode =>
    obtain ⟨p, hrun, rfl⟩ := exceptMap_eq_ok.mp hok
    exact p9Open_owner hrun
  | read env fid buf count offset =>
    obtain ⟨p, hrun, rfl⟩ := exceptMap_eq_ok.mp hok
    exact p9Read_owner hrun
  | write env fid buf offset =>
    obtain ⟨p, hrun, rfl⟩ := exceptMap_eq_ok.mp hok
    exact p9Write_owner hrun
  | clunk env fid =>
    obtain ⟨p, hrun, rfl⟩ := exceptMap_eq_ok.mp hok
    exact p9Clunk_owner h hrun

end Steps

section Disconnect

/-- The entries from `i` on point to the structures with their numbers. -/
def Entries (n i : Nat) (conn : Connection) : Prop :=
  ∀ num, i ≤ num → num < i + n → conn.fidTable num ≠ 0 →
    conn.number (conn.fidTable num) = some num

/-- The structures to which the entries from `i` on point are freed, and no others. -/
theorem freeEntries_ok {n i : Nat} {conn : Connection} (h : Entries n i conn) :
    ∃ conn', freeEntries n i conn = .ok conn' ∧
      (∀ num, i ≤ num → num < i + n → conn.fidTable num ≠ 0 →
        conn'.fids (conn.fidTable num) = none) ∧
      ∀ a, (∀ num, i ≤ num → num < i + n → conn.fidTable num ≠ 0 → conn.fidTable num ≠ a) →
        conn'.fids a = conn.fids a := by
  induction n generalizing i conn with
  | zero => exact ⟨conn, rfl, fun num hle hlt => absurd hlt (by omega), fun a _ => rfl⟩
  | succ n ih =>
    by_cases hused : conn.fidTable i = 0
    · have hrest : Entries n (i + 1) conn := by
        intro num hle hlt
        exact h num (by omega) (by omega)
      obtain ⟨conn', hrun, hfreed, hkept⟩ := ih hrest
      refine ⟨conn', ?_, ?_, ?_⟩
      · have hskip : ¬ conn.fidTable i ≠ 0 := not_not.mpr hused
        rw [freeEntries, if_neg hskip]
        exact hrun
      · intro num hle hlt hne
        have hni : num ≠ i := fun he => hne (he ▸ hused)
        exact hfreed num (by omega) (by omega) hne
      · intro a ha
        exact hkept a fun num hle hlt => ha num (by omega) (by omega)
    · have hown : conn.number (conn.fidTable i) = some i := h i (Nat.le_refl i) (by omega) hused
      obtain ⟨f, hf, hnum⟩ := map_eq_some_iff.mp hown
      let conn₁ : Connection :=
        { conn with fids := update conn.fids (conn.fidTable i) none }
      have hfree : free (conn.fidTable i) conn = .ok conn₁ := by simp [free, hf, conn₁]
      -- Another entry points to another structure, as that has another number.
      have hother : ∀ num, i < num → num < i + (n + 1) → conn.fidTable num ≠ 0 →
          conn.fidTable num ≠ conn.fidTable i := by
        intro num hlt hlt' hne he
        have hnum' := h num (by omega) hlt' hne
        rw [he, hown] at hnum'
        have heq := some.inj hnum'
        omega
      have hrest : Entries n (i + 1) conn₁ := by
        intro num hle hlt hne
        have hdiff := hother num (by omega) (by omega) hne
        have hnum' := h num (by omega) (by omega) hne
        simpa [Connection.number, conn₁, hdiff] using hnum'
      obtain ⟨conn', hrun, hfreed, hkept⟩ := ih hrest
      refine ⟨conn', ?_, ?_, ?_⟩
      · rw [freeEntries, if_pos hused, hfree]
        exact hrun
      · intro num hle hlt hne
        by_cases hni : num = i
        · rw [hni, hkept (conn.fidTable i) fun k hk hk' hkne => hother k (by omega) (by omega) hkne]
          simp [conn₁]
        · exact hfreed num (by omega) (by omega) hne
      · intro a ha
        have hne : a ≠ conn.fidTable i := (ha i (Nat.le_refl i) (by omega) hused).symm
        rw [hkept a fun num hle hlt => ha num (by omega) (by omega)]
        simp [conn₁, hne]

/-- `p9_disconnect` frees the structures in the table, each once, and nothing else. -/
structure FreesStored (conn : Connection) : Prop where
  run : ∃ conn', p9Disconnect conn = .ok conn' ∧
    (∀ num, conn.fidTable num ≠ 0 → conn'.fids (conn.fidTable num) = none) ∧
    ∀ a, (∀ num, conn.fidTable num ≠ 0 → conn.fidTable num ≠ a) → conn'.fids a = conn.fids a

variable {s : System}

theorem Owned.freesStored (h : Owned s) (hidle : s.pending = []) : FreesStored s.conn := by
  have hentries : Entries maxFid 0 s.conn := by
    intro num _ _ hne
    have hmark : s.conn.fidTable num ≠ marker := by
      rw [Ne, h.reserved, System.reserved, hidle]
      exact not_mem_nil
    have hlt : marker < s.conn.fidTable num := by
      have hone : marker = 1 := rfl
      omega
    exact h.entry num _ rfl hlt
  obtain ⟨conn', hrun, hfreed, hkept⟩ := freeEntries_ok hentries
  refine ⟨conn', hrun, ?_, ?_⟩
  · intro num hne
    have hrange := h.range num hne
    exact hfreed num (Nat.zero_le num) (by omega) hne
  · intro a ha
    exact hkept a fun num _ _ hne => ha num hne

end Disconnect

section Runs

variable {s : System}

/-- The structures that are allocated are the live identifiers. Their numbers differ, and an entry
is in use exactly while a live identifier or one call in progress owns its number. -/
structure NumbersOwned (s : System) : Prop where
  allocated : ∀ a, a ∈ s.live ↔ ∃ num, s.conn.number a = some num
  distinct : ∀ a ∈ s.live, ∀ b ∈ s.live, s.conn.number a = s.conn.number b → a = b
  used : ∀ num, s.conn.fidTable num ≠ 0 ↔
    (∃ a ∈ s.live, s.conn.number a = some num) ∨ num ∈ s.reserved
  once : s.reserved.Nodup
  apart : ∀ a ∈ s.live, ∀ num ∈ s.reserved, s.conn.number a ≠ some num

theorem Owned.numbers (h : Owned s) : NumbersOwned s := by
  have hsome : ∀ a, a ∈ s.live ↔ ∃ num, s.conn.number a = some num :=
    fun a => (h.live a).trans isSome_iff_exists
  refine ⟨hsome, ?_, ?_, h.once, ?_⟩
  · intro a ha b hb hab
    obtain ⟨num, hnum⟩ := (hsome a).mp ha
    have hentry := (h.owner a num hnum).1
    rw [← hentry]
    exact (h.owner b num (hab ▸ hnum)).1
  · intro num
    constructor
    · intro hne
      by_cases hmark : s.conn.fidTable num = marker
      · exact .inr ((h.reserved num).mp hmark)
      · have hlt : marker < s.conn.fidTable num := by
          have hone : marker = 1 := rfl
          omega
        have howner := h.entry num _ rfl hlt
        exact .inl ⟨_, (h.live _).mpr (by simp [howner]), howner⟩
    · intro howned
      rcases howned with ⟨a, -, hnum⟩ | hmem
      · have howner := h.owner a num hnum
        rw [howner.1]
        omega
      · rw [(h.reserved num).mpr hmem]
        decide
  · intro a _ num hmem hnum
    have howner := h.owner a num hnum
    rw [(h.reserved num).mpr hmem] at howner
    omega

/-- In every run of calls of any threads, whichever exchanges and allocations fail, the numbers
are owned as the table says, and when no call is in progress `p9_disconnect` frees the live
identifiers and nothing else. -/
theorem fid_numbers_owned (h : Reach systemStep (fun _ _ => True) System.start s) :
    NumbersOwned s ∧ (s.pending = [] → FreesStored s.conn) := by
  have howned : Owned s := by
    refine h.invariant Owned owned_start ?_
    intro s e s' hs _ hstep
    exact (eventStep_owner hs hstep).owned hs
  exact ⟨howned.numbers, howned.freesStored⟩

theorem fid_numbers_owned_attached :
    ∃ s, runLabels systemStep System.start
        [.attach (some [114]) none,
          .finish 0 (.smooth 20 (replyBytes 105 1 (List.replicate 13 0))),
          .walk 2 (some []), .finish 0 { Env.smooth 17 [] with fid := 3, tmsg := false }] = some s ∧
      s.live = [2] ∧ NumbersOwned s ∧ FreesStored s.conn := by
  have hall : (runLabels systemStep System.start
      [.attach (some [114]) none,
        .finish 0 (.smooth 20 (replyBytes 105 1 (List.replicate 13 0))),
        .walk 2 (some []), .finish 0 { Env.smooth 17 [] with fid := 3, tmsg := false }]).any
      (fun s => decide (s.live = [2] ∧ s.pending = [])) = true := by
    decide
  obtain ⟨s, hrun, hfacts⟩ := (any_eq_true _ _).mp hall
  obtain ⟨hlive, hpending⟩ := of_decide_eq_true hfacts
  have hadmits : ∀ es, AdmitsLabels systemStep (fun _ _ => True) System.start es :=
    fun es => admitsLabels_of_forall (fun _ _ => trivial) System.start es
  have howned := fid_numbers_owned (Reach.start.labels _ (hadmits _) hrun)
  exact ⟨s, hrun, hlive, howned.1, howned.2 hpending⟩

end Runs

end Hurd.Lib9p
