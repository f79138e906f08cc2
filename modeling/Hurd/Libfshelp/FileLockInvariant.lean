import Hurd.Framework.Count
import Hurd.Libfshelp.FileLock

/-!
# Consistency of a lock box

Whatever the order of calls and wake-ups, an exclusive lock excludes all others and no assertion of
`fshelp_acquire_lock` fails.
-/

namespace Hurd.Fshelp

open Function List Option Finset

section Core

variable {ι : Type*} [Fintype ι]

/-- The number of users whose word is `LOCK_SH`. -/
def sharers (user : ι → LockWord) : Int := (Finset.univ.filter fun u => user u = .sh).card

theorem sharers_nonneg (user : ι → LockWord) : 0 ≤ sharers user := by
  simp [sharers]

theorem sharers_pos {user : ι → LockWord} {u : ι} (hu : user u = .sh) : 1 ≤ sharers user := by
  have hmem : u ∈ Finset.univ.filter fun u => user u = .sh := by simp [hu]
  have hpos := card_pos.mpr ⟨u, hmem⟩
  simp only [sharers]
  omega

theorem sharers_eq_zero {user : ι → LockWord} : sharers user = 0 ↔ ∀ u, user u ≠ .sh := by
  simp [sharers, filter_eq_empty_iff]

/-- How the type and the count of a box go with the words of its users. -/
structure WordsAgree (type : LockWord) (shcount : Int) (user : ι → LockWord) : Prop where
  known : ∀ u, user u ≠ .shex
  count : sharers user ≤ shcount
  agree : match type with
    | .un => shcount = 0 ∧ ∀ u, user u = .un
    | .ex => shcount = 0 ∧ ∃ u, user u = .ex ∧ ∀ v, v ≠ u → user v = .un
    | .sh | .shex => 1 ≤ shcount ∧ ∀ u, user u ≠ .ex

namespace WordsAgree

variable {type : LockWord} {shcount : Int} {user : ι → LockWord} {u : ι}

theorem un_or_sh (h : WordsAgree type shcount user) (hu : user u ≠ .ex) :
    user u = .un ∨ user u = .sh := by
  have hk := h.known u
  cases hw : user u <;> simp_all

theorem of_un (h : WordsAgree .un shcount user) : shcount = 0 ∧ ∀ v, user v = .un := h.agree

end WordsAgree

variable [DecidableEq ι]

theorem sharers_update (user : ι → LockWord) (u : ι) (w : LockWord) :
    sharers (update user u w) + (if user u = .sh then 1 else 0) =
      sharers user + (if w = .sh then 1 else 0) := by
  have h := card_filter_update Finset.univ (fun w : LockWord => w = .sh) user (mem_univ u) w
  simp only [sharers]
  split_ifs at h ⊢ <;> omega

theorem sharers_update_sh {user : ι → LockWord} {u : ι} (hu : user u ≠ .sh) :
    sharers (update user u .sh) = sharers user + 1 := by
  simpa [hu] using sharers_update user u .sh

theorem sharers_update_ne {user : ι → LockWord} {u : ι} {w : LockWord} (hu : user u = .sh)
    (hw : w ≠ .sh) : sharers (update user u w) = sharers user - 1 := by
  have h := sharers_update user u w
  simp only [hu, hw, if_true, if_false] at h
  omega

theorem sharers_update_same {user : ι → LockWord} {u : ι} {w : LockWord} (hu : user u ≠ .sh)
    (hw : w ≠ .sh) : sharers (update user u w) = sharers user := by
  simpa [hu, hw] using sharers_update user u w

theorem ne_sh_of_sharers_le_one {user : ι → LockWord} {u v : ι} (hu : user u = .sh)
    (hone : sharers user ≤ 1) (hv : v ≠ u) : user v ≠ .sh := by
  have hdrop : sharers (update user u .un) = sharers user - 1 :=
    sharers_update_ne hu (by simp)
  have hpos := sharers_nonneg (update user u .un)
  have hzero : sharers (update user u .un) = 0 := by omega
  have h := sharers_eq_zero.mp hzero v
  simpa [hv] using h

namespace WordsAgree

variable {type : LockWord} {shcount : Int} {user : ι → LockWord} {u : ι}

theorem of_sh (h : WordsAgree type shcount user) (hu : user u = .sh) :
    (type = .sh ∨ type = .shex) ∧ 1 ≤ shcount ∧ ∀ v, user v ≠ .ex := by
  have ha := h.agree
  cases type with
  | un => simp [ha.2 u] at hu
  | ex =>
    obtain ⟨-, v, hv, hrest⟩ := ha
    by_cases huv : u = v
    · simp [huv, hv] at hu
    · simp [hrest u huv] at hu
  | sh => exact ⟨.inl rfl, ha⟩
  | shex => exact ⟨.inr rfl, ha⟩

theorem of_ex (h : WordsAgree type shcount user) (hu : user u = .ex) :
    type = .ex ∧ shcount = 0 ∧ ∀ v, v ≠ u → user v = .un := by
  have ha := h.agree
  cases type with
  | un => simp [ha.2 u] at hu
  | sh => exact absurd hu (ha.2 u)
  | shex => exact absurd hu (ha.2 u)
  | ex =>
    obtain ⟨hn, v, hv, hrest⟩ := ha
    have huv : u = v := by
      by_contra hne
      simp [hrest u hne] at hu
    subst v
    exact ⟨rfl, hn, hrest⟩

theorem known_update {w : LockWord} (h : WordsAgree type shcount user) (hw : w ≠ .shex) (v : ι) :
    update user u w v ≠ .shex := by
  by_cases hv : v = u
  · simp [hv, hw]
  · simpa [hv] using h.known v

theorem release_shared (h : WordsAgree type shcount user) (hu : user u = .sh) :
    WordsAgree (if shcount - 1 = 0 then .un else type) (shcount - 1)
      (update user u .un) := by
  obtain ⟨htype, hpos, hex⟩ := h.of_sh hu
  have hcount := h.count
  have hdrop : sharers (update user u .un) = sharers user - 1 :=
    sharers_update_ne hu (by simp)
  refine ⟨h.known_update (by simp), by omega, ?_⟩
  by_cases hlast : shcount - 1 = 0
  · rw [if_pos hlast]
    refine ⟨hlast, ?_⟩
    intro v
    by_cases hv : v = u
    · simp [hv]
    · have hne : user v ≠ .sh := ne_sh_of_sharers_le_one hu (by omega) hv
      have hun : user v = .un := (h.un_or_sh (hex v)).resolve_right hne
      simpa [hv] using hun
  · rw [if_neg hlast]
    have hex' : ∀ v, update user u .un v ≠ .ex := by
      intro v
      by_cases hv : v = u
      · simp [hv]
      · simpa [hv] using hex v
    rcases htype with rfl | rfl
    · exact ⟨by omega, hex'⟩
    · exact ⟨by omega, hex'⟩

theorem release_exclusive (h : WordsAgree type shcount user) (hu : user u = .ex) :
    WordsAgree .un shcount (update user u .un) := by
  obtain ⟨-, hn, hrest⟩ := h.of_ex hu
  have hcount := h.count
  have hsame : sharers (update user u .un) = sharers user :=
    sharers_update_same (by simp [hu]) (by simp)
  refine ⟨h.known_update (by simp), by omega, hn, ?_⟩
  intro v
  by_cases hv : v = u
  · simp [hv]
  · simpa [hv] using hrest v hv

theorem downgrade (h : WordsAgree type shcount user) (hu : user u = .ex) :
    WordsAgree .sh 1 (update user u .sh) := by
  obtain ⟨-, hn, hrest⟩ := h.of_ex hu
  have hcount := h.count
  have hadd : sharers (update user u .sh) = sharers user + 1 :=
    sharers_update_sh (by simp [hu])
  refine ⟨h.known_update (by simp), by omega, Int.le_refl 1, ?_⟩
  intro v
  by_cases hv : v = u
  · simp [hv]
  · simp [hv, hrest v hv]

theorem take_shared (h : WordsAgree type shcount user) (htype : type.hasEx = false) :
    WordsAgree .sh (shcount + 1) (update user u .sh) := by
  have hcount := h.count
  have hnn := sharers_nonneg user
  have hex : ∀ v, user v ≠ .ex := by
    intro v hv
    rw [(h.of_ex hv).1] at htype
    simp [LockWord.hasEx] at htype
  have hadd : sharers (update user u .sh) ≤ shcount + 1 := by
    by_cases hu : user u = .sh
    · have hself : update user u .sh = user := by simp [← hu]
      rw [hself]
      omega
    · rw [sharers_update_sh hu]
      omega
  refine ⟨h.known_update (by simp), hadd, by omega, ?_⟩
  intro v
  by_cases hv : v = u
  · simp [hv]
  · simpa [hv] using hex v

theorem announce (h : WordsAgree type shcount user) (hu : user u = .sh) :
    WordsAgree .shex shcount user :=
  ⟨h.known, h.count, (h.of_sh hu).2⟩

theorem upgrade (h : WordsAgree type shcount user) (hu : user u = .sh) (hone : shcount = 1) :
    WordsAgree .ex 0 (update user u .ex) := by
  obtain ⟨-, -, hex⟩ := h.of_sh hu
  have hcount := h.count
  have hpos := sharers_pos hu
  have hdrop : sharers (update user u .ex) = sharers user - 1 :=
    sharers_update_ne hu (by simp)
  refine ⟨h.known_update (by simp), by omega, rfl, u, by simp, ?_⟩
  intro v hv
  have hne : user v ≠ .sh := ne_sh_of_sharers_le_one hu (by omega) hv
  simpa [hv] using (h.un_or_sh (hex v)).resolve_right hne

theorem take_exclusive (h : WordsAgree type shcount user) (hsh : user u ≠ .sh)
    (hun : user u = .un → type = .un) :
    WordsAgree .ex shcount (update user u .ex) := by
  have hcount := h.count
  have hsame : sharers (update user u .ex) = sharers user :=
    sharers_update_same hsh (by simp)
  have hrest : shcount = 0 ∧ ∀ v, v ≠ u → user v = .un := by
    by_cases hex : user u = .ex
    · exact (h.of_ex hex).2
    · have hu : user u = .un := (h.un_or_sh hex).resolve_right hsh
      have htype := hun hu
      subst type
      exact ⟨h.of_un.1, fun v _ => h.of_un.2 v⟩
  refine ⟨h.known_update (by simp), by omega, hrest.1, u, by simp, ?_⟩
  intro v hv
  simpa [hv] using hrest.2 v hv

end WordsAgree

end Core

section Box

variable {ι : Type*}

/-- The call waits, asleep or on its way back. -/
def LockBox.Pending (s : LockBox ι) (c : LockCall ι) : Prop := c ∈ s.asleep ∨ c ∈ s.woken

/-- The call asks for a lock and, if it may not block, has not announced an upgrade. -/
def LockCall.Ready (c : LockCall ι) : Prop :=
  (c.flags.sh || c.flags.ex) = true ∧ (c.flags.nb = true → c.upgrading = false)

@[simp] theorem wake_type (s : LockBox ι) : s.wake.type = s.type := by
  simp only [LockBox.wake]
  split <;> rfl

@[simp] theorem wake_shcount (s : LockBox ι) : s.wake.shcount = s.shcount := by
  simp only [LockBox.wake]
  split <;> rfl

@[simp] theorem wake_user (s : LockBox ι) : s.wake.user = s.user := by
  simp only [LockBox.wake]
  split <;> rfl

@[simp] theorem pending_wake (s : LockBox ι) (c : LockCall ι) :
    s.wake.Pending c ↔ s.Pending c := by
  simp only [LockBox.wake]
  split
  · simp only [LockBox.Pending, not_mem_nil, mem_append, false_or]
    exact Or.comm
  · rfl

@[simp] theorem releaseExclusive_user [DecidableEq ι] (u : ι) (s : LockBox ι) :
    (releaseExclusive u s).user = update s.user u .un := by
  simp [releaseExclusive]

@[simp] theorem releaseShared_user [DecidableEq ι] (u : ι) (s : LockBox ι) :
    (releaseShared u s).user = update s.user u .un := by
  simp only [releaseShared]
  split_ifs <;> simp

/-- The step grants no shared lock to a user that has one, and interrupts no announced upgrade. -/
def LockQuiet (s : LockBox ι) : LockEvent ι → Prop
  | .resume i => ∀ c ∈ s.woken[i]?, c.loop = .exclusive → c.flags.sh = true →
      s.type.hasEx = false → s.user c.user ≠ .sh
  | .interrupt i => ∀ c ∈ s.asleep[i]?, c.upgrading = true → s.type ≠ .shex
  | .cancel i => ∀ c ∈ s.woken[i]?, c.upgrading = true → s.type ≠ .shex
  | .call _ _ | .spurious _ => True

theorem mem_eraseIdx_or {α : Type*} {xs : List α} {i : Nat} {a b : α} (ha : a ∈ xs)
    (hb : xs[i]? = some b) : a = b ∨ a ∈ xs.eraseIdx i := by
  obtain ⟨j, hj, rfl⟩ := mem_iff_getElem.mp ha
  by_cases hij : j = i
  · subst j
    left
    simpa [List.getElem?_eq_getElem hj] using hb
  · right
    exact mem_eraseIdx_iff_getElem.mpr ⟨j, hj, hij, rfl⟩

variable [Fintype ι]

/-- What holds of a box between steps, and within one with the running call as `held`. When
`strict` holds, the sharers are counted exactly and an announced upgrade has its call. -/
structure LockInv (strict : Prop) (held : List (LockCall ι)) (s : LockBox ι) : Prop where
  words : WordsAgree s.type s.shcount s.user
  calls : ∀ c, s.Pending c → c.Ready
  exact : strict → s.shcount = sharers s.user
  marked : strict → s.type = .shex → ∃ c, (s.Pending c ∨ c ∈ held) ∧ c.upgrading = true

/-- A call leaves the box in order and fails no assertion. -/
def LockOk (strict : Prop) (p : LockBox ι × Outcome) : Prop :=
  LockInv strict [] p.1 ∧ p.2 ≠ .abort

variable {strict : Prop} {held : List (LockCall ι)} {s : LockBox ι} {c : LockCall ι} {u : ι}

theorem lockInv_init : LockInv strict [] (LockBox.init : LockBox ι) := by
  have hzero : sharers (LockBox.init : LockBox ι).user = 0 :=
    sharers_eq_zero.mpr (by simp [LockBox.init])
  refine ⟨⟨by simp [LockBox.init], by rw [hzero]; rfl, rfl, fun _ => rfl⟩, ?_, ?_, ?_⟩
  · simp [LockBox.Pending, LockBox.init]
  · exact fun _ => hzero.symm
  · simp [LockBox.init]

theorem LockInv.weaken (h : LockInv strict [] s) : LockInv strict held s where
  words := h.words
  calls := h.calls
  exact := h.exact
  marked hs ht := by
    obtain ⟨c, hc, hup⟩ := h.marked hs ht
    exact ⟨c, .inl (by simpa using hc), hup⟩

theorem LockInv.settle (h : LockInv strict [c] s) (hc : c.upgrading = false) :
    LockInv strict [] s where
  words := h.words
  calls := h.calls
  exact := h.exact
  marked hs ht := by
    obtain ⟨c', hc' | hc', hup⟩ := h.marked hs ht
    · exact ⟨c', .inl hc', hup⟩
    · have he : c' = c := by simpa using hc'
      simp [he, hc] at hup

theorem LockInv.wake (h : LockInv strict held s) : LockInv strict held s.wake where
  words := by simpa using h.words
  calls c hc := h.calls c (by simpa using hc)
  exact hs := by simpa using h.exact hs
  marked hs ht := by simpa using h.marked hs (by simpa using ht)

theorem LockInv.wakeIf (h : LockInv strict held s) (p : Prop) [Decidable p] :
    LockInv strict held (if p then s.wake else s) := by
  split
  · exact h.wake
  · exact h

theorem LockInv.condWait (h : LockInv strict [c] s) {c' : LockCall ι} (hready : c'.Ready)
    (hup : c.upgrading = true → c'.upgrading = true) : LockInv strict [] (s.condWait c') where
  words := h.words
  calls d hd := by
    rcases hd with hd | hd
    · rcases mem_append.mp hd with hd | hd
      · exact h.calls d (.inl hd)
      · have he : d = c' := by simpa using hd
        exact he ▸ hready
    · exact h.calls d (.inr hd)
  exact := h.exact
  marked hs ht := by
    obtain ⟨d, hd | hd, hdup⟩ := h.marked hs ht
    · exact ⟨d, .inl (hd.imp_left (mem_append_left _)), hdup⟩
    · have he : d = c := by simpa using hd
      exact ⟨c', .inl (.inl (by simp [LockBox.condWait])), hup (he ▸ hdup)⟩

theorem LockInv.take (h : LockInv strict [] s) {asleep woken : List (LockCall ι)}
    (hsub : ∀ d, d ∈ asleep ∨ d ∈ woken → s.Pending d)
    (hrest : ∀ d, s.Pending d → d = c ∨ d ∈ asleep ∨ d ∈ woken) :
    LockInv strict [c] { s with asleep := asleep, woken := woken } where
  words := h.words
  calls d hd := h.calls d (hsub d hd)
  exact := h.exact
  marked hs ht := by
    obtain ⟨d, hd, hup⟩ := h.marked hs ht
    have hd : s.Pending d := by simpa using hd
    rcases hrest d hd with rfl | hd
    · exact ⟨d, .inr mem_cons_self, hup⟩
    · exact ⟨d, .inl hd, hup⟩

theorem LockInv.takeWoken (h : LockInv strict [] s) {i : Nat} (hc : s.woken[i]? = some c) :
    LockInv strict [c] { s with woken := s.woken.eraseIdx i } := by
  refine h.take (fun d hd => hd.imp_right mem_of_mem_eraseIdx) ?_
  rintro d (hd | hd)
  · exact .inr (.inl hd)
  · exact (mem_eraseIdx_or hd hc).imp_right .inr

theorem LockInv.takeAsleep (h : LockInv strict [] s) {i : Nat} (hc : s.asleep[i]? = some c) :
    LockInv strict [c] { s with asleep := s.asleep.eraseIdx i } := by
  refine h.take (fun d hd => hd.imp_left mem_of_mem_eraseIdx) ?_
  rintro d (hd | hd)
  · exact (mem_eraseIdx_or hd hc).imp_right .inl
  · exact .inr (.inr hd)

theorem LockInv.giveUp (h : LockInv strict [c] s)
    (hquiet : strict → c.upgrading = true → s.type ≠ .shex) : LockInv strict [] s := by
  cases hup : c.upgrading with
  | false => exact h.settle hup
  | true => exact ⟨h.words, h.calls, h.exact, fun hs ht => absurd ht (hquiet hs hup)⟩

variable [DecidableEq ι]

theorem takeExclusive_ok (h : LockInv strict held s)
    (hfree : ¬ ((s.user u = .sh ∧ s.shcount > 1) ∨ (s.user u = .un ∧ s.type ≠ .un))) :
    LockOk strict (takeExclusive u s) := by
  simp only [takeExclusive]
  by_cases hu : s.user u = .sh
  · have hone : s.shcount = 1 := by
      have hpos := (h.words.of_sh hu).2.1
      have hle : ¬ s.shcount > 1 := fun hgt => hfree (.inl ⟨hu, hgt⟩)
      omega
    rw [if_pos hu, if_neg (by simp [hone])]
    refine ⟨⟨h.words.upgrade hu hone, h.calls, ?_, by simp⟩, by simp⟩
    intro hs
    have hexact := h.exact hs
    have hdrop : sharers (update s.user u .ex) = sharers s.user - 1 :=
      sharers_update_ne hu (by simp)
    dsimp only
    omega
  · have hun : s.user u = .un → s.type = .un := by
      intro hw
      by_contra ht
      exact hfree (.inr ⟨hw, ht⟩)
    have hsame : sharers (update s.user u .ex) = sharers s.user :=
      sharers_update_same hu (by simp)
    rw [if_neg hu]
    refine ⟨⟨h.words.take_exclusive hu hun, h.calls, ?_, by simp⟩, by simp⟩
    intro hs
    simpa [hsame] using h.exact hs

theorem waitShared_ok (h : LockInv strict [c] s) (hc : c.Ready) :
    LockOk strict (waitShared c s) := by
  simp only [waitShared]
  split
  · by_cases hnb : c.flags.nb
    · rw [if_pos hnb]
      exact ⟨h.settle (hc.2 hnb), by simp⟩
    · rw [if_neg hnb]
      split
      · rename_i hup
        have hmark : LockInv strict [{ c with upgrading := true }] { s with type := .shex } :=
          ⟨h.words.announce hup.1, h.calls, h.exact,
            fun _ _ => ⟨{ c with upgrading := true }, .inr mem_cons_self, rfl⟩⟩
        exact ⟨hmark.condWait ⟨hc.1, fun h => absurd h hnb⟩ id, by simp⟩
      · exact ⟨h.condWait ⟨hc.1, fun h => absurd h hnb⟩ id, by simp⟩
  · rename_i hfree
    exact takeExclusive_ok h hfree

theorem takeShared_ok (h : LockInv strict held s) (htype : s.type.hasEx = false)
    (honce : strict → s.user u ≠ .sh) : LockOk strict (takeShared u s) := by
  simp only [takeShared, htype]
  refine ⟨⟨h.words.take_shared htype, h.calls, ?_, by simp⟩, by simp⟩
  intro hs
  have hadd : sharers (update s.user u .sh) = sharers s.user + 1 :=
    sharers_update_sh (honce hs)
  simp [hadd, h.exact hs]

theorem waitExclusive_ok (h : LockInv strict [c] s) (hc : c.Ready)
    (honce : strict → c.flags.sh = true → s.type.hasEx = false → s.user c.user ≠ .sh) :
    LockOk strict (waitExclusive c s) := by
  simp only [waitExclusive]
  cases htype : s.type.hasEx with
  | true =>
    by_cases hnb : c.flags.nb
    · simpa [hnb] using ⟨h.settle (hc.2 hnb), by simp⟩
    · rw [if_pos rfl, if_neg hnb]
      exact ⟨h.condWait ⟨hc.1, fun h => absurd h hnb⟩ id, by simp⟩
  | false =>
    rw [if_neg Bool.false_ne_true, if_neg (by simp [hc.1])]
    by_cases hsh : c.flags.sh
    · rw [if_pos hsh]
      exact takeShared_ok h htype fun hs => honce hs hsh htype
    · have hex : c.flags.ex = true := by simpa [hsh] using hc.1
      rw [if_neg hsh, if_pos hex]
      exact waitShared_ok h hc

theorem releaseExclusive_inv (h : LockInv strict held s) (hu : s.user u = .ex) :
    LockInv strict held (releaseExclusive u s) := by
  have hsame : sharers (update s.user u .un) = sharers s.user :=
    sharers_update_same (by simp [hu]) (by simp)
  have hdrop : LockInv strict held
      { s with user := update s.user u .un, type := .un } :=
    ⟨h.words.release_exclusive hu, h.calls, fun hs => by simpa [hsame] using h.exact hs,
      by simp⟩
  exact hdrop.wake

theorem LockInv.leave (h : LockInv strict held s) (hu : s.user u = .sh) :
    LockInv strict held
      { s with
        user := update s.user u .un, shcount := s.shcount - 1
        type := if s.shcount - 1 = 0 then .un else s.type } where
  words := h.words.release_shared hu
  calls := h.calls
  exact hs := by
    have hdrop : sharers (update s.user u .un) = sharers s.user - 1 :=
      sharers_update_ne hu (by simp)
    simp [hdrop, h.exact hs]
  marked hs ht := by
    by_cases hlast : s.shcount - 1 = 0
    · simp [hlast] at ht
    · exact h.marked hs (by simpa [hlast] using ht)

theorem releaseShared_inv (h : LockInv strict held s) (hu : s.user u = .sh) :
    LockInv strict held (releaseShared u s) := by
  have hleave := h.leave hu
  simp only [releaseShared]
  by_cases hlast : s.shcount - 1 = 0
  · simp only [hlast, if_true] at hleave ⊢
    exact hleave.wake.wakeIf _
  · simp only [hlast, if_false] at hleave ⊢
    exact hleave.wakeIf _

theorem LockInv.wakeBefore {w : LockWord}
    (h : LockInv strict held { s with user := update s.user u w }) (p q : Prop)
    [Decidable p] [Decidable q] :
    let s₁ := if p then s.wake else s
    let s₂ := if q then s₁.wake else s₁
    LockInv strict held { s₂ with user := update s₂.user u w } := by
  have hmove : ∀ t : LockBox ι, ({ t.wake with user := update t.wake.user u w } :
      LockBox ι) = LockBox.wake { t with user := update t.user u w } := by
    intro t
    simp only [LockBox.wake]
    split <;> rfl
  dsimp only
  split
  · rw [hmove]
    split
    · rw [hmove]
      exact h.wake.wake
    · exact h.wake
  · split
    · rw [hmove]
      exact h.wake
    · exact h

theorem unlock_ok (h : LockInv strict [] s) : LockOk strict (unlock u s) := by
  simp only [unlock]
  by_cases hun : s.user u = .un
  · simpa [hun] using ⟨h, by simp⟩
  · rw [if_neg hun]
    by_cases hsh : s.user u = .sh
    · have htype := (h.words.of_sh hsh).1
      have hleave := h.leave hsh
      rw [if_neg (by rcases htype with ht | ht <;> simp [hsh, ht]), if_neg (by simp [hsh]),
        if_pos hsh]
      refine ⟨LockInv.wakeBefore ?_ _ _, by simp⟩
      by_cases hlast : s.shcount - 1 = 0
      · simpa [hlast] using hleave
      · simpa [hlast] using hleave
    · have hex : s.user u = .ex := by
        by_contra hne
        rcases h.words.un_or_sh hne with hw | hw
        · exact hun hw
        · exact hsh hw
      have hsame : sharers (update s.user u .un) = sharers s.user :=
        sharers_update_same hsh (by simp)
      rw [if_neg (by simp [hex, (h.words.of_ex hex).1]), if_neg (by simp [hex]), if_neg hsh,
        if_pos hex]
      refine ⟨LockInv.wakeBefore ?_ _ _, by simp⟩
      exact ⟨h.words.release_exclusive hex, h.calls, fun hs => by simpa [hsame] using h.exact hs,
        by simp⟩

theorem downgrade_inv (h : LockInv strict [] s) (hu : s.user u = .ex) :
    LockInv strict [] { s with user := update s.user u .sh, type := .sh, shcount := 1 } := by
  have hadd : sharers (update s.user u .sh) = sharers s.user + 1 :=
    sharers_update_sh (by simp [hu])
  refine ⟨h.words.downgrade hu, h.calls, ?_, by simp⟩
  intro hs
  have hzero := (h.words.of_ex hu).2.1
  have hexact := h.exact hs
  dsimp only
  omega

theorem release_inv (h : LockInv strict held s) :
    let s₁ := if s.user u = .ex then releaseExclusive u s else s
    let s₂ := if s₁.user u = .sh then releaseShared u s₁ else s₁
    LockInv strict held s₂ ∧ s₂.user u = .un := by
  dsimp only
  by_cases hex : s.user u = .ex
  · have hun : (releaseExclusive u s).user u = .un := by simp
    rw [if_pos hex, if_neg (by simp)]
    exact ⟨releaseExclusive_inv h hex, hun⟩
  · rw [if_neg hex]
    by_cases hsh : s.user u = .sh
    · rw [if_pos hsh]
      exact ⟨releaseShared_inv h hsh, by simp⟩
    · rw [if_neg hsh]
      exact ⟨h, (h.words.un_or_sh hex).resolve_right hsh⟩

theorem lock_ok (h : LockInv strict [] s) {flags : LockFlags}
    (hflags : (flags.sh || flags.ex) = true) (hone : flags.ex = true → flags.sh = false) :
    LockOk strict (lock u flags s) := by
  simp only [lock]
  split
  · exact ⟨h, by simp⟩
  · rename_i hhave
    split
    · rename_i heasy
      exact ⟨(downgrade_inv h heasy.2.1).wake, by simp⟩
    · split
      · exact ⟨h, by simp⟩
      · have hready : LockCall.Ready
            { user := u, flags := flags, loop := WaitLoop.exclusive, upgrading := false } :=
          ⟨hflags, fun _ => rfl⟩
        by_cases hatomic : flags.atomic
        · simp only [hatomic, not_true_eq_false, and_false, if_false]
          refine waitExclusive_ok h.weaken hready ?_
          intro _ hsh _ hu
          have hex : flags.ex = false := by
            by_contra hne
            simp [hone (by simpa using hne)] at hsh
          exact hhave ⟨hatomic, by simpa [LockFlags.want, hex] using hu⟩
        · obtain ⟨hinv, hun⟩ := release_inv (u := u) h
          simp only [hatomic, Bool.false_eq_true, not_false_eq_true, and_true]
          refine waitExclusive_ok hinv.weaken hready ?_
          intro _ _ _ hu
          simp [hun] at hu

theorem fshelpAcquireLock_ok (h : LockInv strict [] s) (flags : LockFlags) :
    LockOk strict (fshelpAcquireLock u flags s) := by
  simp only [fshelpAcquireLock]
  split
  · exact ⟨h, by simp⟩
  · split
    · exact ⟨h, by simp⟩
    · rename_i hany hone
      cases hex : flags.ex with
      | true =>
        have hun : flags.un = false := by simpa [hex] using hone
        simp only [hun, if_true]
        exact lock_ok h (by simp) (by simp)
      | false =>
        cases hun : flags.un with
        | true => simpa [hun] using unlock_ok h
        | false =>
          rw [if_neg Bool.false_ne_true, if_neg (by simp [hun])]
          exact lock_ok h (by simpa [hex, hun] using hany) (by simp [hex])

theorem lockRun_ok (h : LockInv strict [] s) {e : LockEvent ι} (hquiet : strict → LockQuiet s e)
    {p : LockBox ι × Outcome} (hrun : lockRun s e = some p) : LockOk strict p := by
  cases e with
  | call u flags =>
    cases hrun
    exact fshelpAcquireLock_ok h flags
  | resume i =>
    obtain ⟨c, hc, rfl⟩ := map_eq_some_iff.mp hrun
    have hready : c.Ready := h.calls c (.inr (mem_of_getElem? hc))
    have htake := h.takeWoken hc
    simp only [resumeCall]
    cases hloop : c.loop with
    | exclusive => exact waitExclusive_ok htake hready fun hs => hquiet hs c hc hloop
    | shared => exact waitShared_ok htake hready
  | spurious i =>
    obtain ⟨c, hc, rfl⟩ := map_eq_some_iff.mp hrun
    have htake := h.takeAsleep hc
    refine ⟨⟨h.words, ?_, h.exact, ?_⟩, by simp⟩
    · rintro d (hd | hd)
      · exact htake.calls d (.inl hd)
      · rcases mem_append.mp hd with hd | hd
        · exact htake.calls d (.inr hd)
        · have he : d = c := by simpa using hd
          exact he ▸ h.calls c (.inl (mem_of_getElem? hc))
    · intro hs ht
      obtain ⟨d, hd, hup⟩ := htake.marked hs ht
      refine ⟨d, .inl ?_, hup⟩
      simp only [LockBox.Pending, mem_append] at hd ⊢
      tauto
  | interrupt i =>
    obtain ⟨c, hc, rfl⟩ := map_eq_some_iff.mp hrun
    exact ⟨(h.takeAsleep hc).giveUp fun hs => hquiet hs c hc, by simp⟩
  | cancel i =>
    obtain ⟨c, hc, rfl⟩ := map_eq_some_iff.mp hrun
    exact ⟨(h.takeWoken hc).giveUp fun hs => hquiet hs c hc, by simp⟩

theorem lockStep_inv (h : LockInv strict [] s) {e : LockEvent ι} (hquiet : strict → LockQuiet s e)
    {t : LockBox ι} (hstep : lockStep s e = some t) : LockInv strict [] t := by
  obtain ⟨p, hrun, rfl⟩ := map_eq_some_iff.mp hstep
  exact (lockRun_ok h hquiet hrun).1

/-- At most one user has the exclusive lock, and then no user has a shared one. -/
def Excludes (s : LockBox ι) : Prop :=
  ∀ u v, s.user u = .ex → u ≠ v → s.user v ≠ .ex ∧ s.user v ≠ .sh

/-- No assertion fails in whatever call or waiting call runs next. -/
def AssertionsHold (s : LockBox ι) : Prop :=
  ∀ e p, lockRun s e = some p → p.2 ≠ .abort

/-- The type of the box is that of the locks its users have; it announces an upgrade only as long
as the call that announced it waits. -/
def TypeAgrees (s : LockBox ι) : Prop :=
  match s.type with
  | .un => ∀ u, s.user u = .un
  | .ex => ∃ u, s.user u = .ex ∧ ∀ v, v ≠ u → s.user v = .un
  | .sh => (∃ u, s.user u = .sh) ∧ ∀ u, s.user u = .un ∨ s.user u = .sh
  | .shex => ((∃ u, s.user u = .sh) ∧ ∀ u, s.user u = .un ∨ s.user u = .sh) ∧
      ∃ c, s.Pending c ∧ c.upgrading = true

theorem LockInv.excludes (h : LockInv strict [] s) : Excludes s := by
  intro u v hu huv
  have hv := (h.words.of_ex hu).2.2 v (Ne.symm huv)
  simp [hv]

theorem LockInv.assertionsHold (h : LockInv False [] s) : AssertionsHold s :=
  fun _ _ hrun => (lockRun_ok h False.elim hrun).2

omit [DecidableEq ι] in
theorem LockInv.typeAgrees (h : LockInv True [] s) : TypeAgrees s := by
  have hwords := h.words
  have hexact := h.exact trivial
  have hmarked := h.marked trivial
  have hshared : 1 ≤ s.shcount ∧ (∀ u, s.user u ≠ .ex) →
      (∃ u, s.user u = .sh) ∧ ∀ u, s.user u = .un ∨ s.user u = .sh := by
    rintro ⟨hpos, hex⟩
    refine ⟨?_, fun u => hwords.un_or_sh (hex u)⟩
    by_contra hnone
    have hzero : sharers s.user = 0 := sharers_eq_zero.mpr (by simpa using hnone)
    omega
  have hagree := hwords.agree
  simp only [TypeAgrees]
  cases htype : s.type with
  | un =>
    rw [htype] at hagree
    exact hagree.2
  | ex =>
    rw [htype] at hagree
    exact hagree.2
  | sh =>
    rw [htype] at hagree
    exact hshared hagree
  | shex =>
    rw [htype] at hagree
    obtain ⟨c, hc, hup⟩ := hmarked htype
    exact ⟨hshared hagree, c, by simpa using hc, hup⟩

end Box

/-- In every run an exclusive lock excludes all others and no assertion fails. In every run whose
steps are quiet, moreover, the sharers are counted and the type agrees with the users' words. -/
theorem acquireLock_consistent (ι : Type*) [Fintype ι] [DecidableEq ι] :
    (∀ s : LockBox ι, Reach lockStep (fun _ _ => True) LockBox.init s →
      Excludes s ∧ AssertionsHold s) ∧
    ∀ s : LockBox ι, Reach lockStep LockQuiet LockBox.init s →
      Excludes s ∧ s.shcount = sharers s.user ∧ TypeAgrees s ∧ AssertionsHold s := by
  constructor
  · intro s h
    have hinv : LockInv False [] s :=
      h.invariant (LockInv False []) lockInv_init
        fun _ _ _ hs _ hstep => lockStep_inv hs False.elim hstep
    exact ⟨hinv.excludes, hinv.assertionsHold⟩
  · intro s h
    have hinv : LockInv True [] s :=
      h.invariant (LockInv True []) lockInv_init
        fun _ _ _ hs hquiet hstep => lockStep_inv hs (fun _ => hquiet) hstep
    have hloose : LockInv False [] s :=
      ⟨hinv.words, hinv.calls, False.elim, False.elim⟩
    exact ⟨hinv.excludes, hinv.exact trivial, hinv.typeAgrees, hloose.assertionsHold⟩

instance {ι : Type*} [DecidableEq ι] (s : LockBox ι) (e : LockEvent ι) :
    Decidable (LockQuiet s e) :=
  match e with
  | .resume _ => inferInstanceAs (Decidable (∀ c ∈ _, _))
  | .interrupt _ => inferInstanceAs (Decidable (∀ c ∈ _, _))
  | .cancel _ => inferInstanceAs (Decidable (∀ c ∈ _, _))
  | .call _ _ | .spurious _ => .isTrue trivial

/-- Two users share the lock and the first waits for an atomic upgrade. -/
def upgradeSchedule : List (LockEvent (Fin 2)) :=
  [.call 0 { sh := true }, .call 1 { sh := true }, .call 0 { ex := true, atomic := true }]

theorem acquireLock_consistent_upgrade :
    ∃ s, runLabels lockStep LockBox.init upgradeSchedule = some s ∧ s.type = .shex ∧
      Excludes s ∧ s.shcount = sharers s.user ∧ TypeAgrees s ∧ AssertionsHold s :=
  ⟨_, rfl, by decide,
    (acquireLock_consistent (Fin 2)).2 _ (.labels upgradeSchedule .start (by decide) rfl)⟩

/-- Two `LOCK_SH` calls on one word wait for an exclusive lock to end and are both granted. -/
def twiceSharedSchedule : List (LockEvent (Fin 2)) :=
  [.call 0 { ex := true }, .call 1 { sh := true }, .call 1 { sh := true }, .call 0 { un := true },
   .resume 0, .resume 0]

/-- The waiting upgrade of `upgradeSchedule` is interrupted. -/
def interruptedUpgradeSchedule : List (LockEvent (Fin 2)) := upgradeSchedule ++ [.interrupt 0]

/-- One sharer is counted twice; and an upgrade stays announced that nobody waits for. -/
theorem acquireLock_miscounts :
    (∃ s : LockBox (Fin 2), Reach lockStep (fun _ _ => True) LockBox.init s ∧
      s.shcount = 2 ∧ sharers s.user = 1) ∧
    ∃ s : LockBox (Fin 2), Reach lockStep (fun _ _ => True) LockBox.init s ∧
      s.type = .shex ∧ s.asleep = [] ∧ s.woken = [] ∧ ¬ TypeAgrees s := by
  constructor
  · refine ⟨_, .labels twiceSharedSchedule .start (by decide) rfl, ?_⟩
    decide
  · refine ⟨_, .labels interruptedUpgradeSchedule .start (by decide) rfl, rfl, rfl, rfl, ?_⟩
    rintro ⟨-, c, hc | hc, -⟩
    · exact not_mem_nil hc
    · exact not_mem_nil hc

end Hurd.Fshelp
