import Hurd.Auth.Rendezvous
import Hurd.Libihash.LocpMap

/-!
# Users and servers are matched one to one

A server that has taken the record of a user is the only one that has, and the user gets its port. It
goes wrong when a call is interrupted while the record in the table is not its own, or while a server
has its record: whether some record is there is all that the call looks at.
-/

namespace Hurd.Auth.Rendezvous

open Ihash Option Function

variable {α : Type*} {s t : State α} {i k : Nat} {mu ms mu' ms' : Nat → Option Nat}
  {calls : Nat → Option (Call α)}

section Invariant

/-- The user waits in vain so far, and no other server can find it. -/
def Owed (calls : Nat → Option (Call α)) (mu : Nat → Option Nat) (rendezvous u : Nat) (user : α) :
    Prop :=
  ∃ r, calls u = some (.userWaits r) ∧ r.rendezvous = rendezvous ∧ r.user = user ∧
    r.passthrough = none ∧ r.wakeup = false ∧ ∀ k, k ≠ 0 → mu k ≠ some u

/-- The user has got the port, and has returned with it or will. -/
def Filled (calls : Nat → Option (Call α)) (rendezvous newport u : Nat) (user : α) : Prop :=
  ∃ r, r.rendezvous = rendezvous ∧ r.user = user ∧ r.passthrough = some newport ∧
    (calls u = some (.userWaits r) ∨ calls u = some (.userDone r (.ok (some newport))))

/-- A server has returned that had sent the ids of the user. -/
def Served (calls : Nat → Option (Call α)) (i rendezvous newport : Nat) (user : α) : Prop :=
  ∃ j, calls j = some (.serverDone rendezvous newport (.ok (i, user)))

/-- What holds of a call in view of the others. -/
def CallOk (calls : Nat → Option (Call α)) (mu : Nat → Option Nat) (i : Nat) : Call α → Prop
  | .refused _ => True
  | .userWaits r => r.rendezvous ≠ 0 ∧ (r.wakeup = true → r.passthrough ≠ none) ∧
      ∀ p, r.passthrough = some p → Served calls i r.rendezvous p r.user
  | .userDone r (.ok x) => ∃ p, x = some p ∧ Served calls i r.rendezvous p r.user
  | .userDone _ (.error _) => True
  | .serverWaits rendezvous _ _ => rendezvous ≠ 0
  | .serverReplies rendezvous _ u user => Owed calls mu rendezvous u user
  | .serverDone rendezvous newport (.ok x) => Filled calls rendezvous newport x.1 x.2
  | .serverDone _ _ (.error _) => True

/-- The user whose record a server has taken. -/
def target : Option (Call α) → Option Nat
  | some (.serverReplies _ _ u _) => some u
  | some (.serverDone _ _ (.ok x)) => some x.1
  | _ => none

def UserRecord (k : Nat) (c : Option (Call α)) : Prop :=
  ∃ r, c = some (.userWaits r) ∧ r.rendezvous = k ∧ r.passthrough = none ∧ r.wakeup = false

def ServerRecord (k : Nat) (c : Option (Call α)) : Prop :=
  ∃ newport, c = some (.serverWaits k newport false)

/-- The tables, as finite maps, and the calls agree. -/
structure Inv (s : State α) (mu ms : Nat → Option Nat) : Prop where
  users : Holds s.pendingUsers mu
  servers : Holds s.pendingServers ms
  fresh : ∀ i, s.count ≤ i → s.calls i = none
  userRecord : ∀ k i, k ≠ 0 → mu k = some i → UserRecord k (s.calls i)
  serverRecord : ∀ k i, k ≠ 0 → ms k = some i → ServerRecord k (s.calls i)
  call : ∀ i c, s.calls i = some c → CallOk s.calls mu i c
  once : ∀ i j u, target (s.calls i) = some u → target (s.calls j) = some u → i = j

theorem inv_init : Inv (State.init : State α) (fun _ => none) fun _ => none := by
  refine ⟨holds_freshTable false, holds_freshTable false, fun _ _ => rfl, ?_, ?_, ?_, ?_⟩
  · intro k i _ h
    cases h
  · intro k i _ h
    cases h
  · intro i c h
    cases h
  · intro i j u h
    cases h

/-- One of the calls goes on. It is no server that has returned successfully, and no user that a server
has yet to give a port. -/
theorem Inv.update (h : Inv s mu ms) {c : Call α}
    (hcalls : t.calls = update s.calls i (some c)) (hcount : s.count ≤ t.count)
    (hi : i < t.count) (husers : Holds t.pendingUsers mu') (hservers : Holds t.pendingServers ms')
    (hmu : ∀ k j, k ≠ 0 → mu' k = some j → mu k = some j ∨ j = i)
    (hmui : ∀ k, k ≠ 0 → mu' k = some i → UserRecord k (some c))
    (hms : ∀ k j, k ≠ 0 → ms' k = some j → ms k = some j ∨ j = i)
    (hmsi : ∀ k, k ≠ 0 → ms' k = some i → ServerRecord k (some c))
    (hdone : ∀ rendezvous newport x, s.calls i ≠ some (.serverDone rendezvous newport (.ok x)))
    (hfilled : ∀ rendezvous newport user, Filled s.calls rendezvous newport i user →
      Filled t.calls rendezvous newport i user)
    (howed : ∀ rendezvous user, ¬ Owed s.calls mu rendezvous i user)
    (hnew : CallOk t.calls mu' i c)
    (honce : ∀ u j, target (some c) = some u → j ≠ i → target (s.calls j) ≠ some u) :
    Inv t mu' ms' := by
  have hself : t.calls i = some c := by
    rw [hcalls, update_self]
  have hother : ∀ j, j ≠ i → t.calls j = s.calls j := by
    intro j hj
    rw [hcalls, update_of_ne hj]
  have hserved : ∀ j rendezvous newport user, Served s.calls j rendezvous newport user →
      Served t.calls j rendezvous newport user := by
    rintro j rendezvous newport user ⟨j', hj'⟩
    refine ⟨j', (hother j' ?_).trans hj'⟩
    intro heq
    exact hdone _ _ _ (heq ▸ hj')
  have hfilled' : ∀ u rendezvous newport user, Filled s.calls rendezvous newport u user →
      Filled t.calls rendezvous newport u user := by
    intro u rendezvous newport user hf
    by_cases hu : u = i
    · subst hu
      exact hfilled _ _ _ hf
    · obtain ⟨r, hr, huser, hp, hcall⟩ := hf
      refine ⟨r, hr, huser, hp, ?_⟩
      rw [hother u hu]
      exact hcall
  have howed' : ∀ u rendezvous user, Owed s.calls mu rendezvous u user →
      Owed t.calls mu' rendezvous u user := by
    intro u rendezvous user ho
    have hu : u ≠ i := by
      intro heq
      exact howed rendezvous user (heq ▸ ho)
    obtain ⟨r, hr, hrv, huser, hp, hw, hno⟩ := ho
    refine ⟨r, (hother u hu).trans hr, hrv, huser, hp, hw, ?_⟩
    intro k hk heq
    rcases hmu k u hk heq with hold | hui
    · exact hno k hk hold
    · exact hu hui
  refine ⟨husers, hservers, ?_, ?_, ?_, ?_, ?_⟩
  · intro j hj
    rw [hother j (by omega)]
    exact h.fresh j (by omega)
  · intro k j hk hj
    by_cases hji : j = i
    · subst hji
      rw [hself]
      exact hmui k hk hj
    · rw [hother j hji]
      exact h.userRecord k j hk ((hmu k j hk hj).resolve_right hji)
  · intro k j hk hj
    by_cases hji : j = i
    · subst hji
      rw [hself]
      exact hmsi k hk hj
    · rw [hother j hji]
      exact h.serverRecord k j hk ((hms k j hk hj).resolve_right hji)
  · intro j cj hcj
    by_cases hji : j = i
    · subst hji
      rw [hself] at hcj
      cases hcj
      exact hnew
    · rw [hother j hji] at hcj
      have hok := h.call j cj hcj
      cases cj with
      | refused err => trivial
      | userWaits r => exact ⟨hok.1, hok.2.1, fun p hp => hserved _ _ _ _ (hok.2.2 p hp)⟩
      | userDone r result =>
        cases result with
        | error err => trivial
        | ok x =>
          obtain ⟨p, hx, hs⟩ := hok
          exact ⟨p, hx, hserved _ _ _ _ hs⟩
      | serverWaits rendezvous newport wakeup => exact hok
      | serverReplies rendezvous newport u user => exact howed' u _ _ hok
      | serverDone rendezvous newport result =>
        cases result with
        | error err => trivial
        | ok x => exact hfilled' x.1 _ _ _ hok
  · intro j j' u hj hj'
    by_cases hji : j = i
    · by_cases hji' : j' = i
      · rw [hji, hji']
      · rw [hji, hself] at hj
        rw [hother j' hji'] at hj'
        exact absurd hj' (honce u j' hj hji')
    · rw [hother j hji] at hj
      by_cases hji' : j' = i
      · rw [hji', hself] at hj'
        exact absurd hj (honce u j hj' hji)
      · rw [hother j' hji'] at hj'
        exact h.once j j' u hj hj'

theorem Inv.mu_ne (h : Inv s mu ms) (hk : k ≠ 0) (hi : ∀ r, s.calls i ≠ some (.userWaits r)) :
    mu k ≠ some i := by
  intro heq
  obtain ⟨r, hr, -⟩ := h.userRecord k i hk heq
  exact hi r hr

theorem Inv.ms_ne (h : Inv s mu ms) (hk : k ≠ 0)
    (hi : ∀ newport, s.calls i ≠ some (.serverWaits k newport false)) : ms k ≠ some i := by
  intro heq
  obtain ⟨newport, hr⟩ := h.serverRecord k i hk heq
  exact hi newport hr

theorem Inv.user_key (h : Inv s mu ms) {k' : Nat} (hk : k ≠ 0) (hk' : k' ≠ 0)
    (hi : mu k = some i) (hi' : mu k' = some i) : k' = k := by
  obtain ⟨r, hr, hrk, -⟩ := h.userRecord k i hk hi
  obtain ⟨r', hr', hrk', -⟩ := h.userRecord k' i hk' hi'
  rw [hr] at hr'
  cases hr'
  exact hrk'.symm.trans hrk

theorem Inv.server_key (h : Inv s mu ms) {k' : Nat} (hk : k ≠ 0) (hk' : k' ≠ 0)
    (hi : ms k = some i) (hi' : ms k' = some i) : k' = k := by
  obtain ⟨p, hp⟩ := h.serverRecord k i hk hi
  obtain ⟨p', hp'⟩ := h.serverRecord k' i hk' hi'
  rw [hp] at hp'
  cases hp'
  rfl

theorem Inv.not_target (h : Inv s mu ms) (hk : k ≠ 0) (hi : mu k = some i) (j : Nat) :
    target (s.calls j) ≠ some i := by
  intro htarget
  obtain ⟨r, hr, -, hp, -⟩ := h.userRecord k i hk hi
  cases hj : s.calls j with
  | none =>
    rw [hj] at htarget
    cases htarget
  | some c =>
    have hok := h.call j c hj
    rw [hj] at htarget
    cases c with
    | serverReplies rendezvous newport u user =>
      cases htarget
      obtain ⟨-, -, -, -, -, -, hno⟩ := hok
      exact hno k hk hi
    | serverDone rendezvous newport result =>
      cases result with
      | error err => cases htarget
      | ok x =>
        cases htarget
        obtain ⟨r', -, -, hp', hcall | hcall⟩ := hok
        · rw [hr] at hcall
          cases hcall
          rw [hp] at hp'
          cases hp'
        · rw [hr] at hcall
          cases hcall
    | refused err => cases htarget
    | userWaits r => cases htarget
    | userDone r result => cases htarget
    | serverWaits rendezvous newport wakeup => cases htarget

theorem Inv.update_other (h : Inv s mu ms) {c : Call α}
    (hcalls : t.calls = Function.update s.calls i (some c)) (hcount : s.count ≤ t.count)
    (hi : i < t.count) (husers : Holds t.pendingUsers mu') (hservers : Holds t.pendingServers ms')
    (hmu : ∀ k j, k ≠ 0 → mu' k = some j → mu k = some j ∨ j = i)
    (hmui : ∀ k, k ≠ 0 → mu' k = some i → UserRecord k (some c))
    (hms : ∀ k j, k ≠ 0 → ms' k = some j → ms k = some j ∨ j = i)
    (hmsi : ∀ k, k ≠ 0 → ms' k = some i → ServerRecord k (some c))
    (hold : s.calls i = none ∨ ∃ rendezvous newport wakeup,
      s.calls i = some (.serverWaits rendezvous newport wakeup))
    (hnew : CallOk t.calls mu' i c)
    (honce : ∀ u j, target (some c) = some u → j ≠ i → target (s.calls j) ≠ some u) :
    Inv t mu' ms' := by
  apply h.update hcalls hcount hi husers hservers hmu hmui hms hmsi _ _ _ hnew honce
  · intro rendezvous newport x heq
    rcases hold with hold | ⟨_, _, _, hold⟩ <;> rw [hold] at heq <;> cases heq
  · rintro rendezvous newport user ⟨r, -, -, -, heq | heq⟩ <;>
      rcases hold with hold | ⟨_, _, _, hold⟩ <;> rw [hold] at heq <;> cases heq
  · rintro rendezvous user ⟨r, heq, -⟩
    rcases hold with hold | ⟨_, _, _, hold⟩ <;> rw [hold] at heq <;> cases heq

end Invariant

section Steps

theorem update_some {m : Nat → Option Nat} {k' j : Nat}
    (h : update m k (some i) k' = some j) : k' = k ∧ j = i ∨ k' ≠ k ∧ m k' = some j := by
  by_cases hk : k' = k
  · subst hk
    rw [update_self] at h
    cases h
    exact .inl ⟨rfl, rfl⟩
  · rw [update_of_ne hk] at h
    exact .inr ⟨hk, h⟩

theorem update_none {m : Nat → Option Nat} {k' j : Nat}
    (h : update m k none k' = some j) : k' ≠ k ∧ m k' = some j := by
  by_cases hk : k' = k
  · subst hk
    rw [update_self] at h
    cases h
  · rw [update_of_ne hk] at h
    exact ⟨hk, h⟩

theorem ne_zero_of_valid (h : ¬ machPortValid k = false) : k ≠ 0 := by
  intro heq
  subst heq
  exact h rfl

theorem Inv.fresh_count (h : Inv s mu ms) : s.calls s.count = none := h.fresh _ (Nat.le_refl _)

theorem Inv.refuse (h : Inv s mu ms) (err : Error) : Inv (s.addCall (.refused err)) mu ms := by
  have hfresh := h.fresh_count
  refine h.update_other (i := s.count) (c := .refused err) rfl (Nat.le_succ _)
    (Nat.lt_succ_self _) h.users h.servers ?_ ?_ ?_ ?_ ?_ ?_ ?_
  · exact fun _ _ _ hmu => .inl hmu
  · intro k hk hmu
    exact absurd hmu (h.mu_ne hk (by simp [hfresh]))
  · exact fun _ _ _ hms => .inl hms
  · intro k hk hms
    exact absurd hms (h.ms_ne hk (by simp [hfresh]))
  · exact .inl hfresh
  · trivial
  · intro u j hu
    cases hu

theorem Inv.userEnters (h : Inv s mu ms) (hk : k ≠ 0) {users : Table Nat} (user : α)
    (husers : Holds users (Function.update mu k (some s.count))) :
    Inv { s.addCall (.userWaits ⟨k, user, false, none⟩) with pendingUsers := users }
      (Function.update mu k (some s.count)) ms := by
  have hfresh := h.fresh_count
  refine h.update_other (i := s.count) (c := .userWaits ⟨k, user, false, none⟩) rfl
    (Nat.le_succ _) (Nat.lt_succ_self _) husers h.servers ?_ ?_ ?_ ?_ ?_ ?_ ?_
  · intro k' j _ hmu
    rcases update_some hmu with ⟨-, hj⟩ | ⟨-, hold⟩
    · exact .inr hj
    · exact .inl hold
  · intro k' hk' hmu
    rcases update_some hmu with ⟨hkk, -⟩ | ⟨-, hold⟩
    · subst hkk
      exact ⟨_, rfl, rfl, rfl, rfl⟩
    · exact absurd hold (h.mu_ne hk' (by simp [hfresh]))
  · exact fun _ _ _ hms => .inl hms
  · intro k' hk' hms
    exact absurd hms (h.ms_ne hk' (by simp [hfresh]))
  · exact .inl hfresh
  · refine ⟨hk, ?_, ?_⟩
    · intro hw
      cases hw
    · intro p hp
      cases hp
  · intro u j hu
    cases hu

theorem Inv.serverSignalled (h : Inv s mu ms) (hk : k ≠ 0) (hi : ms k = some i)
    {servers : Table Nat} (hservers : Holds servers (Function.update ms k none)) :
    Inv (signal { s with pendingServers := servers } i) mu (Function.update ms k none) := by
  obtain ⟨newport, hcall⟩ := h.serverRecord k i hk hi
  have hlt : i < s.count := by
    by_contra hle
    rw [h.fresh i (by omega)] at hcall
    cases hcall
  have hsignal : signal { s with pendingServers := servers } i =
      { s with
        pendingServers := servers
        calls := Function.update s.calls i (some (.serverWaits k newport true)) } := by
    simp only [signal, hcall]
    rfl
  rw [hsignal]
  refine h.update_other (i := i) (c := .serverWaits k newport true) rfl (Nat.le_refl _) hlt
    h.users hservers ?_ ?_ ?_ ?_ ?_ ?_ ?_
  · exact fun _ _ _ hmu => .inl hmu
  · intro k' hk' hmu
    exact absurd hmu (h.mu_ne hk' (by simp [hcall]))
  · exact fun _ _ _ hms => .inl (update_none hms).2
  · intro k' hk' hms
    exact absurd (h.server_key hk hk' hi (update_none hms).2) (update_none hms).1
  · exact .inr ⟨_, _, _, hcall⟩
  · exact hk
  · intro u j hu
    cases hu

theorem Inv.lt_count (h : Inv s mu ms) {c : Call α} (hc : s.calls i = some c) : i < s.count := by
  by_contra hle
  rw [h.fresh i (by omega)] at hc
  cases hc

theorem Inv.serverEnters (h : Inv s mu ms) (hk : k ≠ 0) {servers : Table Nat} (newport : Nat)
    (hservers : Holds servers (Function.update ms k (some s.count))) :
    Inv { s.addCall (.serverWaits k newport false) with pendingServers := servers } mu
      (Function.update ms k (some s.count)) := by
  have hfresh := h.fresh_count
  refine h.update_other (i := s.count) (c := .serverWaits k newport false) rfl (Nat.le_succ _)
    (Nat.lt_succ_self _) h.users hservers ?_ ?_ ?_ ?_ ?_ ?_ ?_
  · exact fun _ _ _ hmu => .inl hmu
  · intro k' hk' hmu
    exact absurd hmu (h.mu_ne hk' (by simp [hfresh]))
  · intro k' j _ hms
    rcases update_some hms with ⟨-, hj⟩ | ⟨-, hold⟩
    · exact .inr hj
    · exact .inl hold
  · intro k' hk' hms
    rcases update_some hms with ⟨hkk, -⟩ | ⟨-, hold⟩
    · subst hkk
      exact ⟨newport, rfl⟩
    · exact absurd hold (h.ms_ne hk' (by simp [hfresh]))
  · exact .inl hfresh
  · exact hk
  · intro u j hu
    cases hu

theorem removeRecord_spec {ht : Table Nat} {m : Nat → Option Nat} (h : Holds ht m) (hk : k ≠ 0)
    (hi : m k = some i) :
    ∃ ht', removeRecord ht i = some ht' ∧ Holds ht' (update m k none) := by
  obtain ⟨l, ht', hlocp, hremove, hholds⟩ := h.locpRemove hk hi
  refine ⟨ht', ?_, hholds⟩
  simp only [removeRecord, hlocp, hremove]

theorem Inv.bump (h : Inv s mu ms) : Inv { s with count := s.count + 1 } mu ms := by
  refine ⟨h.users, h.servers, ?_, h.userRecord, h.serverRecord, h.call, h.once⟩
  intro i hi
  exact h.fresh i (Nat.le_of_succ_le hi)

theorem Inv.serverTakes (h : Inv s mu ms) (hk : k ≠ 0) {u : Nat} (hu : mu k = some u)
    (hi : i < s.count)
    (hold : s.calls i = none ∨ ∃ newport wakeup, s.calls i = some (.serverWaits k newport wakeup))
    (hms : ∀ k, k ≠ 0 → ms k ≠ some i) (newport : Nat) :
    ∃ t user, serverTake s i k newport u = some t ∧ Inv t (Function.update mu k none) ms ∧
      t.calls = Function.update s.calls i (some (.serverReplies k newport u user)) := by
  obtain ⟨r, hr, hrk, hp, hw⟩ := h.userRecord k u hk hu
  obtain ⟨users, hremove, husers⟩ := removeRecord_spec h.users hk hu
  have hui : u ≠ i := by
    intro heq
    rw [heq] at hr
    rcases hold with hold | ⟨_, _, hold⟩ <;> rw [hold] at hr <;> cases hr
  refine ⟨{ s.setCall i (.serverReplies k newport u r.user) with pendingUsers := users }, r.user,
    by simp only [serverTake, hremove, hr, recordUser], ?_, rfl⟩
  refine h.update_other (i := i) (c := .serverReplies k newport u r.user) rfl (Nat.le_refl _) hi
    husers h.servers ?_ ?_ ?_ ?_ ?_ ?_ ?_
  · exact fun _ _ _ hmu => .inl (update_none hmu).2
  · intro k' hk' hmu
    refine absurd (update_none hmu).2 (h.mu_ne hk' ?_)
    intro r'
    rcases hold with hold | ⟨_, _, hold⟩ <;> simp [hold]
  · exact fun _ _ _ hms => .inl hms
  · intro k' hk' hmsi
    exact absurd hmsi (hms k' hk')
  · rcases hold with hold | ⟨_, _, hold⟩
    · exact .inl hold
    · exact .inr ⟨_, _, _, hold⟩
  · refine ⟨r, ?_, hrk, rfl, hp, hw, ?_⟩
    · exact (Function.update_of_ne hui ..).trans hr
    · intro k' hk' hmu
      exact (update_none hmu).1 (h.user_key hk hk' hu (update_none hmu).2)
  · intro u' j hu' _
    cases hu'
    exact h.not_target hk hu j

theorem Inv.serverGivesUp (h : Inv s mu ms) {rendezvous newport : Nat} {wakeup : Bool}
    (hcall : s.calls i = some (.serverWaits rendezvous newport wakeup)) {servers : Table Nat}
    (hservers : Holds servers ms') (hms : ∀ k j, k ≠ 0 → ms' k = some j → ms k = some j)
    (hmsi : ∀ k, k ≠ 0 → ms' k ≠ some i) (err : Error) :
    Inv { s.setCall i (.serverDone rendezvous newport (.error err)) with pendingServers := servers }
      mu ms' := by
  refine h.update_other (i := i) (c := .serverDone rendezvous newport (.error err)) rfl
    (Nat.le_refl _) (h.lt_count hcall) h.users hservers ?_ ?_ ?_ ?_ ?_ ?_ ?_
  · exact fun _ _ _ hmu => .inl hmu
  · intro k' hk' hmu
    exact absurd hmu (h.mu_ne hk' (by simp [hcall]))
  · exact fun k j hk hms' => .inl (hms k j hk hms')
  · intro k' hk' hmsi'
    exact absurd hmsi' (hmsi k' hk')
  · exact .inr ⟨_, _, _, hcall⟩
  · trivial
  · intro u j hu
    cases hu

theorem Inv.userGivesUp (h : Inv s mu ms) (hk : k ≠ 0) (hi : mu k = some i) {r : PendingUser α}
    (hcall : s.calls i = some (.userWaits r)) {users : Table Nat}
    (husers : Holds users (Function.update mu k none)) (err : Error) :
    Inv { s.setCall i (.userDone r (.error err)) with pendingUsers := users }
      (Function.update mu k none) ms := by
  obtain ⟨r', hr', -, hp, -⟩ := h.userRecord k i hk hi
  rw [hcall] at hr'
  cases hr'
  refine h.update (i := i) (c := .userDone r (.error err)) rfl (Nat.le_refl _) (h.lt_count hcall)
    husers h.servers ?_ ?_ ?_ ?_ ?_ ?_ ?_ ?_ ?_
  · exact fun _ _ _ hmu => .inl (update_none hmu).2
  · intro k' hk' hmu
    exact absurd (h.user_key hk hk' hi (update_none hmu).2) (update_none hmu).1
  · exact fun _ _ _ hms => .inl hms
  · intro k' hk' hms
    exact absurd hms (h.ms_ne hk' (by simp [hcall]))
  · simp [hcall]
  · rintro rendezvous newport user ⟨r', -, -, hp', heq | heq⟩ <;> rw [hcall] at heq <;> cases heq
    rw [hp] at hp'
    cases hp'
  · rintro rendezvous user ⟨-, -, -, -, -, -, hno⟩
    exact hno k hk hi
  · trivial
  · intro u j hu
    cases hu

theorem Inv.userReturns (h : Inv s mu ms) {r : PendingUser α} {p : Nat}
    (hcall : s.calls i = some (.userWaits r)) (hp : r.passthrough = some p) :
    Inv (s.setCall i (.userDone r (.ok (some p)))) mu ms := by
  have hself : (s.setCall i (.userDone r (.ok (some p)))).calls i =
      some (.userDone r (.ok (some p))) := update_self ..
  have hok := h.call i _ hcall
  have hmu : ∀ k, k ≠ 0 → mu k ≠ some i := by
    intro k hk heq
    obtain ⟨r', hr', -, hp', -⟩ := h.userRecord k i hk heq
    rw [hcall] at hr'
    cases hr'
    rw [hp] at hp'
    cases hp'
  refine h.update (i := i) (c := .userDone r (.ok (some p))) rfl (Nat.le_refl _) (h.lt_count hcall)
    h.users h.servers ?_ ?_ ?_ ?_ ?_ ?_ ?_ ?_ ?_
  · exact fun _ _ _ hmu => .inl hmu
  · intro k' hk' heq
    exact absurd heq (hmu k' hk')
  · exact fun _ _ _ hms => .inl hms
  · intro k' hk' hms
    exact absurd hms (h.ms_ne hk' (by simp [hcall]))
  · simp [hcall]
  · rintro rendezvous newport user ⟨r', hrv, huser, hp', heq | heq⟩ <;> rw [hcall] at heq <;>
      cases heq
    rw [hp] at hp'
    cases hp'
    exact ⟨r, hrv, huser, hp, .inr hself⟩
  · rintro rendezvous user ⟨r', hr', -, -, hp', -⟩
    rw [hcall] at hr'
    cases hr'
    rw [hp] at hp'
    cases hp'
  · obtain ⟨j, hj⟩ := hok.2.2 p hp
    refine ⟨p, rfl, j, ?_⟩
    have hji : j ≠ i := by
      intro heq
      rw [heq, hcall] at hj
      cases hj
    exact (update_of_ne hji ..).trans hj
  · intro u j hu
    cases hu

theorem serverFinish_calls {rendezvous newport u : Nat} {user : α} {r : PendingUser α}
    (hcall : s.calls u = some (.userWaits r)) :
    serverFinish s i rendezvous newport u user =
      { s with
        calls := update (update s.calls u
          (some (.userWaits { r with passthrough := some newport, wakeup := true }))) i
          (some (.serverDone rendezvous newport (.ok (u, user)))) } := by
  have hstore : storePassthrough s u newport =
      s.setCall u (.userWaits { r with passthrough := some newport }) := by
    simp only [storePassthrough, hcall]
  simp only [serverFinish, hstore, signal, State.setCall, update_self,
    update_idem]

theorem Inv.serverFinishes (h : Inv s mu ms) {rendezvous newport u : Nat} {user : α}
    (hcall : s.calls i = some (.serverReplies rendezvous newport u user)) :
    Inv (serverFinish s i rendezvous newport u user) mu ms := by
  obtain ⟨r, hr, hrv, huser, hp, -, hno⟩ := h.call i _ hcall
  have hrok := h.call u _ hr
  rw [serverFinish_calls hr]
  have hui : u ≠ i := by
    intro heq
    rw [heq, hcall] at hr
    cases hr
  have hiu : i ≠ u := hui.symm
  generalize hc' : Function.update (Function.update s.calls u
    (some (.userWaits { r with passthrough := some newport, wakeup := true }))) i
    (some (.serverDone rendezvous newport (.ok (u, user)))) = calls'
  have hi : calls' i = some (.serverDone rendezvous newport (.ok (u, user))) := by
    rw [← hc', Function.update_self]
  have hu : calls' u =
      some (.userWaits { r with passthrough := some newport, wakeup := true }) := by
    rw [← hc', Function.update_of_ne hui, Function.update_self]
  have hother : ∀ j, j ≠ i → j ≠ u → calls' j = s.calls j := by
    intro j hji hju
    rw [← hc', Function.update_of_ne hji, Function.update_of_ne hju]
  have hserved : ∀ j rendezvous newport user, Served s.calls j rendezvous newport user →
      Served calls' j rendezvous newport user := by
    rintro j rendezvous newport user ⟨j', hj'⟩
    refine ⟨j', (hother j' ?_ ?_).trans hj'⟩
    · intro heq
      rw [heq, hcall] at hj'
      cases hj'
    · intro heq
      rw [heq, hr] at hj'
      cases hj'
  have htarget : target (s.calls i) = some u := by rw [hcall]; rfl
  refine ⟨h.users, h.servers, ?_, ?_, ?_, ?_, ?_⟩
  · intro j hj
    have hlti := h.lt_count hcall
    have hltu := h.lt_count hr
    refine (hother j ?_ ?_).trans (h.fresh j hj)
    · intro heq
      exact absurd hj (by rw [heq]; exact Nat.not_le.mpr hlti)
    · intro heq
      exact absurd hj (by rw [heq]; exact Nat.not_le.mpr hltu)
  · intro k j hk hmu
    have hrec := h.userRecord k j hk hmu
    rw [← hother j] at hrec
    · exact hrec
    · intro heq
      exact absurd (heq ▸ hmu) (h.mu_ne hk (by simp [hcall]))
    · intro heq
      exact hno k hk (heq ▸ hmu)
  · intro k j hk hms
    have hrec := h.serverRecord k j hk hms
    rw [← hother j] at hrec
    · exact hrec
    · intro heq
      exact absurd (heq ▸ hms) (h.ms_ne hk (by simp [hcall]))
    · intro heq
      exact absurd (heq ▸ hms) (h.ms_ne hk (by simp [hr]))
  · intro j c hc
    replace hc : calls' j = some c := hc
    show CallOk calls' mu j c
    by_cases hji : j = i
    · subst hji
      rw [hi] at hc
      cases hc
      exact ⟨{ r with passthrough := some newport, wakeup := true }, hrv, huser, rfl, .inl hu⟩
    · by_cases hju : j = u
      · subst hju
        rw [hu] at hc
        cases hc
        refine ⟨hrok.1, fun _ => some_ne_none _, ?_⟩
        intro p hp'
        cases hp'
        refine ⟨i, ?_⟩
        rw [hi, ← hrv, ← huser]
      · have hcj : s.calls j = some c := (hother j hji hju).symm.trans hc
        have hok := h.call j c hcj
        cases c with
        | refused err => trivial
        | userWaits r' => exact ⟨hok.1, hok.2.1, fun p hp => hserved _ _ _ _ (hok.2.2 p hp)⟩
        | userDone r' result =>
          cases result with
          | error err => trivial
          | ok x =>
            obtain ⟨p, hx, hs⟩ := hok
            exact ⟨p, hx, hserved _ _ _ _ hs⟩
        | serverWaits rendezvous' newport' wakeup => exact hok
        | serverReplies rendezvous' newport' u' user' =>
          have hne : u' ≠ u := by
            intro heq
            apply hji
            apply h.once j i u _ htarget
            rw [hcj, ← heq, target]
          obtain ⟨r', hr', hrest⟩ := hok
          refine ⟨r', (hother u' ?_ hne).trans hr', hrest⟩
          intro heq
          rw [heq, hcall] at hr'
          cases hr'
        | serverDone rendezvous' newport' result =>
          cases result with
          | error err => trivial
          | ok x =>
            have hne : x.1 ≠ u := by
              intro heq
              apply hji
              apply h.once j i u _ htarget
              rw [hcj, ← heq]
              rfl
            obtain ⟨r', hrv', huser', hp', hcase⟩ := hok
            have hxi : x.1 ≠ i := by
              intro heq
              rw [heq, hcall] at hcase
              rcases hcase with hcase | hcase <;> cases hcase
            refine ⟨r', hrv', huser', hp', ?_⟩
            rw [hother x.1 hxi hne]
            exact hcase
  · have hsame : ∀ j, target (calls' j) = target (s.calls j) := by
      intro j
      by_cases hji : j = i
      · rw [hji, hi, hcall]
        rfl
      · by_cases hju : j = u
        · rw [hju, hu, hr]
          rfl
        · rw [hother j hji hju]
    intro j j' v hj hj'
    exact h.once j j' v ((hsame j).symm.trans hj) ((hsame j').symm.trans hj')

end Steps

section Runs

/-- A user is interrupted only while its own record is in the table, or when none is and it has got its
port. A server is interrupted only while no other record is in the table. -/
def InterruptOk (s : State α) : Event α → Prop
  | .interrupt i _ =>
      match s.calls i with
      | some (.userWaits u) =>
          hurdIhashFind u.rendezvous s.pendingUsers = some i ∨
            hurdIhashFind u.rendezvous s.pendingUsers = none ∧ u.passthrough ≠ none
      | some (.serverWaits rendezvous _ _) =>
          hurdIhashFind rendezvous s.pendingServers = some i ∨
            hurdIhashFind rendezvous s.pendingServers = none
      | _ => True
  | _ => True

theorem Inv.userAuthenticate (h : Inv s mu ms) {calloc : Nat → Bool} {userauth : Option α}
    (hs : userAuthenticate calloc s userauth k = some t) : ∃ mu' ms', Inv t mu' ms' := by
  unfold Rendezvous.userAuthenticate at hs
  split at hs
  · cases hs
    exact ⟨mu, ms, h.refuse _⟩
  · rename_i user
    split at hs
    · cases hs
      exact ⟨mu, ms, h.refuse _⟩
    · rename_i hvalid
      have hk := ne_zero_of_valid hvalid
      have hnew : ∀ x, x ≠ 0 → mu x = some s.count → x = k := by
        intro x hx hmu
        exact absurd hmu (h.mu_ne hx (by simp [h.fresh_count]))
      rcases h.users.add hk hnew calloc with hno | ⟨users, hadd, husers⟩
      · rw [hno] at hs
        cases hs
        exact ⟨mu, ms, h.refuse _⟩
      · have henter := h.userEnters hk user husers
        rw [hadd, h.servers.find hk] at hs
        cases hj : ms k with
        | none =>
          rw [hj] at hs
          cases hs
          exact ⟨_, _, henter⟩
        | some j =>
          obtain ⟨servers, hremove, hservers⟩ := removeRecord_spec h.servers hk hj
          rw [hj] at hs
          simp only [hremove, map_some, Option.some.injEq] at hs
          rw [← hs]
          exact ⟨_, _, henter.serverSignalled hk hj hservers⟩

theorem Inv.serverAuthenticate (h : Inv s mu ms) {calloc : Nat → Bool} {serverauth : Bool}
    {newport : Nat} (hs : serverAuthenticate calloc s serverauth k newport = some t) :
    ∃ mu' ms', Inv t mu' ms' := by
  unfold Rendezvous.serverAuthenticate at hs
  split at hs
  · cases hs
    exact ⟨mu, ms, h.refuse _⟩
  · split at hs
    · cases hs
      exact ⟨mu, ms, h.refuse _⟩
    · rename_i hvalid
      have hk := ne_zero_of_valid hvalid
      rw [h.users.find hk] at hs
      cases hu : mu k with
      | some u =>
        obtain ⟨t', user, hrun, hinv, -⟩ := h.bump.serverTakes hk hu (Nat.lt_succ_self _)
          (.inl h.fresh_count) (fun k hk => h.ms_ne hk (by simp [h.fresh_count])) newport
        rw [hu] at hs
        simp only [hrun, Option.some.injEq] at hs
        exact ⟨_, _, hs ▸ hinv⟩
      | none =>
        rw [hu] at hs
        have hnew : ∀ x, x ≠ 0 → ms x = some s.count → x = k := by
          intro x hx hms
          exact absurd hms (h.ms_ne hx (by simp [h.fresh_count]))
        rcases h.servers.add hk hnew calloc with hno | ⟨servers, hadd, hservers⟩
        · rw [hno] at hs
          cases hs
          exact ⟨mu, ms, h.refuse _⟩
        · rw [hadd] at hs
          cases hs
          exact ⟨_, _, h.serverEnters hk newport hservers⟩

/-- What is left when the record of a call is removed. -/
def without (i : Nat) (o : Option Nat) : Option Nat := if o = some i then none else o

theorem without_of_ne {o : Option Nat} (h : o ≠ some i) : without i o = o := if_neg h

/-- The tables have lost nothing but records of the call. -/
def LosesOwn (i : Nat) (mu ms mu' ms' : Nat → Option Nat) : Prop :=
  ∀ k, k ≠ 0 → mu' k = without i (mu k) ∧ ms' k = without i (ms k)

theorem update_without {m : Nat → Option Nat} (hk : m k = some i)
    (hkey : ∀ k', k' ≠ 0 → m k' = some i → k' = k) {k' : Nat} (hk' : k' ≠ 0) :
    update m k none k' = without i (m k') := by
  by_cases hkk : k' = k
  · rw [hkk, update_self, without, if_pos hk]
  · rw [update_of_ne hkk, without_of_ne]
    intro heq
    exact hkk (hkey k' hk' heq)

/-- The call has returned with an error. -/
def Failed : Option (Call α) → Prop
  | some (.userDone _ (.error _)) => True
  | some (.serverDone _ _ (.error _)) => True
  | _ => False

theorem Inv.userResume (h : Inv s mu ms) {r : PendingUser α} {interrupted dead : Bool}
    (hcall : s.calls i = some (.userWaits r))
    (hok : interrupted = false ∧ r.wakeup = true ∨ interrupted = true ∧
      (hurdIhashFind r.rendezvous s.pendingUsers = some i ∨
        hurdIhashFind r.rendezvous s.pendingUsers = none ∧ r.passthrough ≠ none))
    (hs : userResume s i r interrupted dead = some t) :
    ∃ mu' ms', Inv t mu' ms' ∧ (Failed (t.calls i) → LosesOwn i mu ms mu' ms') := by
  have hcok := h.call i _ hcall
  have hk : r.rendezvous ≠ 0 := hcok.1
  have hms : ∀ k, k ≠ 0 → ms k = without i (ms k) := by
    intro k hk
    rw [without_of_ne (h.ms_ne hk (by simp [hcall]))]
  -- the user has its port and returns with it
  have hreturn : r.passthrough ≠ none → s.setCall i (.userDone r (.ok r.passthrough)) = t →
      ∃ mu' ms', Inv t mu' ms' ∧ (Failed (t.calls i) → LosesOwn i mu ms mu' ms') := by
    intro hne heq
    obtain ⟨p, hp⟩ := ne_none_iff_exists'.mp hne
    rw [hp] at heq
    rw [← heq]
    refine ⟨mu, ms, h.userReturns hcall hp, ?_⟩
    intro hfailed
    rw [State.setCall_calls_self] at hfailed
    exact hfailed.elim
  unfold Rendezvous.userResume at hs
  rw [h.users.find hk] at hs hok
  rcases hok with ⟨hint, hw⟩ | ⟨hint, hown | ⟨hnone, hne⟩⟩
  · rw [hint, if_neg (by simp)] at hs
    exact hreturn (hcok.2.1 hw) (some.inj hs)
  · obtain ⟨users, hremove, husers⟩ := removeRecord_spec h.users hk hown
    rw [hint, hown, if_pos ⟨rfl, some_ne_none _⟩] at hs
    simp only [hremove, map_some, Option.some.injEq] at hs
    rw [← hs]
    refine ⟨_, ms, h.userGivesUp hk hown hcall husers _, ?_⟩
    intro _ k' hk'
    exact ⟨update_without hown (fun k'' hk'' => h.user_key hk hk'' hown) hk', hms k' hk'⟩
  · rw [hnone, if_neg (by simp)] at hs
    exact hreturn hne (some.inj hs)

theorem Inv.serverResume (h : Inv s mu ms) {newport : Nat} {wakeup interrupted dead : Bool}
    (hcall : s.calls i = some (.serverWaits k newport wakeup))
    (hok : interrupted = false ∧ wakeup = true ∨ interrupted = true ∧
      (hurdIhashFind k s.pendingServers = some i ∨ hurdIhashFind k s.pendingServers = none))
    (hs : serverResume s i k newport interrupted dead = some t) :
    ∃ mu' ms', Inv t mu' ms' ∧ (Failed (t.calls i) → LosesOwn i mu ms mu' ms') := by
  have hk : k ≠ 0 := h.call i _ hcall
  have hmu : ∀ k, k ≠ 0 → mu k = without i (mu k) := by
    intro k hk
    rw [without_of_ne (h.mu_ne hk (by simp [hcall]))]
  -- its record is no more in the table, and it looks for a user
  have hlook : (∀ k, k ≠ 0 → ms k ≠ some i) →
      (mu k = none → s.setCall i (.serverDone k newport (.error .eintr)) = t) →
      (∀ u, mu k = some u → serverTake s i k newport u = some t) →
      ∃ mu' ms', Inv t mu' ms' ∧ (Failed (t.calls i) → LosesOwn i mu ms mu' ms') := by
    intro hgone hnone hsome
    cases hu : mu k with
    | none =>
      rw [← hnone hu]
      refine ⟨mu, ms, h.serverGivesUp hcall h.servers (fun _ _ _ hms => hms) hgone _, ?_⟩
      intro _ k' hk'
      exact ⟨hmu k' hk', (without_of_ne (hgone k' hk')).symm⟩
    | some u =>
      obtain ⟨t', user, htake, hinv, hreplies⟩ := h.serverTakes hk hu (h.lt_count hcall)
        (.inr ⟨_, _, hcall⟩) hgone newport
      have hrun := hsome u hu
      rw [htake, Option.some.injEq] at hrun
      rw [← hrun]
      refine ⟨_, ms, hinv, ?_⟩
      intro hfailed
      rw [hreplies, update_self] at hfailed
      exact hfailed.elim
  unfold Rendezvous.serverResume at hs
  rw [h.servers.find hk] at hs hok
  rw [h.users.find hk] at hs
  rcases hok with ⟨hint, hw⟩ | ⟨hint, hown | hnone⟩
  · rw [hint, if_neg (by simp)] at hs
    refine hlook ?_ (fun hu => by simpa [hu] using hs) (fun u hu => by simpa [hu] using hs)
    intro k' hk' hms
    obtain ⟨p, hp⟩ := h.serverRecord k' i hk' hms
    rw [hcall, hw] at hp
    cases hp
  · obtain ⟨servers, hremove, hservers⟩ := removeRecord_spec h.servers hk hown
    have hkey : ∀ k', k' ≠ 0 → ms k' = some i → k' = k :=
      fun k' hk' => h.server_key hk hk' hown
    rw [hint, hown, if_pos ⟨rfl, some_ne_none _⟩] at hs
    simp only [hremove, map_some, Option.some.injEq] at hs
    rw [← hs]
    refine ⟨mu, _, h.serverGivesUp hcall hservers (fun _ _ _ hms => (update_none hms).2) ?_ _, ?_⟩
    · intro k' hk' hms
      exact (update_none hms).1 (hkey k' hk' (update_none hms).2)
    · intro _ k' hk'
      exact ⟨hmu k' hk', update_without hown hkey hk'⟩
  · rw [hnone, if_neg (by simp)] at hs
    refine hlook ?_ (fun hu => by simpa [hu] using hs) (fun u hu => by simpa [hu] using hs)
    intro k' hk' hms
    obtain ⟨p, hp⟩ := h.serverRecord k' i hk' hms
    rw [hcall] at hp
    cases hp
    rw [hnone] at hms
    cases hms

theorem Inv.resume (h : Inv s mu ms) {interrupted dead : Bool}
    (hok : interrupted = true → InterruptOk s (.interrupt i dead))
    (hs : resume s i interrupted dead = some t) :
    ∃ mu' ms', Inv t mu' ms' ∧ (Failed (t.calls i) → LosesOwn i mu ms mu' ms') := by
  unfold Rendezvous.resume at hs
  unfold InterruptOk at hok
  split at hs
  · rename_i u hcall
    simp only [hcall] at hok
    split at hs
    · rename_i hwake
      apply h.userResume hcall _ hs
      cases interrupted with
      | false => exact .inl ⟨rfl, by simpa using hwake⟩
      | true => exact .inr ⟨rfl, hok rfl⟩
    · cases hs
  · rename_i rendezvous newport wakeup hcall
    simp only [hcall] at hok
    split at hs
    · rename_i hwake
      apply h.serverResume hcall _ hs
      cases interrupted with
      | false => exact .inl ⟨rfl, by simpa using hwake⟩
      | true => exact .inr ⟨rfl, hok rfl⟩
    · cases hs
  · cases hs

theorem Inv.step (h : Inv s mu ms) {e : Event α} (hok : InterruptOk s e)
    (hs : step s e = some t) : ∃ mu' ms', Inv t mu' ms' := by
  cases e with
  | userAuthenticate calloc userauth rendezvous => exact h.userAuthenticate hs
  | serverAuthenticate calloc serverauth rendezvous newport => exact h.serverAuthenticate hs
  | wake i =>
    obtain ⟨mu', ms', hinv, -⟩ := h.resume (fun hint => by cases hint) hs
    exact ⟨mu', ms', hinv⟩
  | interrupt i dead =>
    obtain ⟨mu', ms', hinv, -⟩ := h.resume (fun _ => hok) hs
    exact ⟨mu', ms', hinv⟩
  | replied i =>
    simp only [Rendezvous.step] at hs
    split at hs
    · rename_i hcall
      cases hs
      exact ⟨mu, ms, h.serverFinishes hcall⟩
    · cases hs

theorem inv_of_reach (h : Reach step InterruptOk State.init s) : ∃ mu ms, Inv s mu ms := by
  apply Reach.invariant (fun s => ∃ mu ms, Inv s mu ms) ⟨_, _, inv_init⟩ _ h
  intro s e t hinv hok hs
  obtain ⟨mu, ms, hinv⟩ := hinv
  exact hinv.step hok hs

def UserWaits (s : State α) (u : Nat) : Prop := ∃ r, s.calls u = some (.userWaits r)

/-- In every run, a successful server has sent the ids of a user on its rendezvous, of which no other
server has the record; a successful user returns with the port of the server that sent its ids; the
records in the tables and those that servers still have are of calls that have not returned; and a
call that fails because it is interrupted removes no record but its own. -/
theorem rendezvous_sound (h : Reach step InterruptOk State.init s) :
    (∀ j rendezvous newport u user,
      s.calls j = some (.serverDone rendezvous newport (.ok (u, user))) →
        ∃ r, (s.calls u = some (.userWaits r) ∨ ∃ x, s.calls u = some (.userDone r (.ok x))) ∧
          r.rendezvous = rendezvous ∧ r.user = user) ∧
    (∀ i j u, target (s.calls i) = some u → target (s.calls j) = some u → i = j) ∧
    (∀ i r x, s.calls i = some (.userDone r (.ok x)) → ∃ j newport, x = some newport ∧
      s.calls j = some (.serverDone r.rendezvous newport (.ok (i, r.user)))) ∧
    (∀ k u, k ≠ 0 → hurdIhashFind k s.pendingUsers = some u → UserWaits s u) ∧
    (∀ k j, k ≠ 0 → hurdIhashFind k s.pendingServers = some j →
      ∃ newport wakeup, s.calls j = some (.serverWaits k newport wakeup)) ∧
    (∀ j rendezvous newport u user,
      s.calls j = some (.serverReplies rendezvous newport u user) → UserWaits s u) ∧
    ∀ i dead t, InterruptOk s (.interrupt i dead) → step s (.interrupt i dead) = some t →
      Failed (t.calls i) → ∀ k, k ≠ 0 →
        hurdIhashFind k t.pendingUsers = without i (hurdIhashFind k s.pendingUsers) ∧
          hurdIhashFind k t.pendingServers = without i (hurdIhashFind k s.pendingServers) := by
  obtain ⟨mu, ms, hinv⟩ := inv_of_reach h
  refine ⟨?_, hinv.once, ?_, ?_, ?_, ?_, ?_⟩
  · intro j rendezvous newport u user hj
    obtain ⟨r, hrv, huser, -, hcall⟩ := hinv.call j _ hj
    refine ⟨r, ?_, hrv, huser⟩
    rcases hcall with hcall | hcall
    · exact .inl hcall
    · exact .inr ⟨_, hcall⟩
  · intro i r x hi
    obtain ⟨p, hx, j, hj⟩ := hinv.call i _ hi
    exact ⟨j, p, hx, hj⟩
  · intro k u hk hu
    rw [hinv.users.find hk] at hu
    obtain ⟨r, hr, -⟩ := hinv.userRecord k u hk hu
    exact ⟨r, hr⟩
  · intro k j hk hj
    rw [hinv.servers.find hk] at hj
    obtain ⟨newport, hcall⟩ := hinv.serverRecord k j hk hj
    exact ⟨newport, false, hcall⟩
  · intro j rendezvous newport u user hj
    obtain ⟨r, hr, -⟩ := hinv.call j _ hj
    exact ⟨r, hr⟩
  · intro i dead t hok hs hfailed k hk
    obtain ⟨mu', ms', hinv', hloses⟩ := hinv.resume (fun _ => hok) hs
    rw [hinv'.users.find hk, hinv'.servers.find hk, hinv.users.find hk, hinv.servers.find hk]
    exact hloses hfailed k hk

theorem exchange_begins :
    ∃ (s : State Unit) (mu ms : Nat → Option Nat), Reach step InterruptOk State.init s ∧
      Inv s mu ms ∧ mu 5 = none ∧ s.calls 0 = some (.userWaits ⟨5, (), false, none⟩) ∧
      s.calls 1 = some (.serverReplies 5 9 0 ()) := by
  have hinit : Inv (State.init : State Unit) (fun _ => none) fun _ => none := inv_init
  have hk : (5 : Nat) ≠ 0 := by decide
  obtain ⟨users, hadd, husers⟩ := hinit.users.add_memory (k := 5) (v := 0) hk (by simp)
  have henter := hinit.userEnters hk () husers
  obtain ⟨s, hs⟩ : ∃ s : State Unit, s = { State.init.addCall
      (.userWaits ⟨5, (), false, none⟩) with pendingUsers := users } := ⟨_, rfl⟩
  rw [← hs] at henter
  have hcount : s.count = 1 := by rw [hs]; rfl
  have hcall : s.calls 0 = some (.userWaits ⟨5, (), false, none⟩) := by rw [hs]; rfl
  have huser : step State.init (.userAuthenticate (fun _ => true) (some ()) 5) = some s := by
    have hfind := hinit.servers.find hk
    simp only [step, userAuthenticate]
    rw [if_neg (by decide), show hurdIhashAdd (fun _ => true) 5 State.init.count
      State.init.pendingUsers = _ from hadd, hfind, hs]
  obtain ⟨t, user, htake, hinv, hcalls⟩ := henter.bump.serverTakes (i := 1) hk
    (update_self ..) (show 1 < s.count + 1 by omega) (.inl (henter.fresh 1 (by omega)))
    (fun k _ hms => by cases hms) 9
  have hserver : step s (.serverAuthenticate (fun _ => true) true 5 9) = some t := by
    have hfind := henter.users.find hk
    rw [update_self] at hfind
    simp only [step, serverAuthenticate, Bool.true_eq_false, if_false]
    rw [if_neg (by decide), hfind, hcount, ← htake, hcount]
  have hreach : Reach step InterruptOk State.init s :=
    .step (.userAuthenticate (fun _ => true) (some ()) 5) .start trivial huser
  refine ⟨t, _, _, .step (.serverAuthenticate (fun _ => true) true 5 9) hreach trivial hserver,
    hinv, update_self .., ?_, ?_⟩
  · rw [hcalls]
    exact hcall
  · rw [hcalls]
    rfl

theorem rendezvous_sound_exchange :
    ∃ s : State Unit, Reach step InterruptOk State.init s ∧
      s.calls 0 = some (.userDone ⟨5, (), true, some 9⟩ (.ok (some 9))) ∧
      ∃ j newport, some 9 = some newport ∧
        s.calls j = some (.serverDone 5 newport (.ok (0, ()))) := by
  obtain ⟨s, mu, ms, hreach, -, -, huser, hserver⟩ := exchange_begins
  have hreplied : step s (.replied 1) = some (serverFinish s 1 5 9 0 ()) := by
    simp only [step, hserver]
  have hcall : (serverFinish s 1 5 9 0 ()).calls 0 = some (.userWaits ⟨5, (), true, some 9⟩) := by
    rw [serverFinish_calls huser]
    rfl
  have hwake : step (serverFinish s 1 5 9 0 ()) (.wake 0) =
      some ((serverFinish s 1 5 9 0 ()).setCall 0
        (.userDone ⟨5, (), true, some 9⟩ (.ok (some 9)))) := by
    simp [step, resume, hcall, userResume]
  have hreach' : Reach step InterruptOk State.init (serverFinish s 1 5 9 0 ()) :=
    .step (.replied 1) hreach trivial hreplied
  have hdone : Reach step InterruptOk State.init _ := .step (.wake 0) hreach' trivial hwake
  exact ⟨_, hdone, State.setCall_calls_self ..,
    (rendezvous_sound hdone).2.2.1 0 _ _ (State.setCall_calls_self ..)⟩

/-- A user is interrupted after a server has taken its record. It returns successfully without a port,
and the server still has the record. -/
theorem user_returns_without_port :
    ∃ s : State Unit, Reach step (fun _ _ => True) State.init s ∧
      s.calls 0 = some (.userDone ⟨5, (), false, none⟩ (.ok none)) ∧
      s.calls 1 = some (.serverReplies 5 9 0 ()) := by
  obtain ⟨s, mu, ms, hreach, hinv, hmu, huser, hserver⟩ := exchange_begins
  have hfind := hinv.users.find (k := 5) (by decide)
  rw [hmu] at hfind
  have hinterrupt : step s (.interrupt 0 false) =
      some (s.setCall 0 (.userDone ⟨5, (), false, none⟩ (.ok none))) := by
    simp [step, resume, huser, userResume, hfind]
  refine ⟨_, .step _ (hreach.mono fun _ _ _ => trivial) trivial hinterrupt,
    State.setCall_calls_self .., ?_⟩
  exact hserver

end Runs

end Hurd.Auth.Rendezvous
