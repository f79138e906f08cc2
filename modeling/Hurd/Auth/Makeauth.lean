import Hurd.Framework.Run

/-!
# Creation of auth handles

`auth/auth.c` and `libshouldbeinlibc/idvec.c`: an auth handle has vectors of effective and available
ids. `auth_makeauth` makes a new one from the ids of others. It may run out of memory at any point,
and then leaves a handle that has only some of the ids.
-/

namespace Hurd.Auth

open List

inductive Error where
  | eopnotsupp
  | eperm
  | enomem
  deriving DecidableEq

/-- `struct idvec`, where `num` is the length of the list. -/
structure Idvec where
  ids : List Nat
  alloced : Nat

namespace Idvec

variable (realloc : Nat → Bool) (v : Idvec)

/-- `idvec_ensure`, where `realloc` tells for which sizes there is memory. -/
def ensure (num : Nat) : Except Error Idvec :=
  if v.alloced < num then
    if realloc num = true then .ok { v with alloced := num } else .error .enomem
  else .ok v

def tailContains (pos id : Nat) : Bool := (v.ids.drop pos).contains id

def contains (id : Nat) : Bool := v.tailContains 0 id

def insert (pos id : Nat) : Except Error Idvec :=
  let num := v.ids.length
  let newNum := if pos < num then num + 1 else pos + 1
  match v.ensure realloc (if v.alloced = num then newNum + num else newNum) with
  | .error err => .error err
  | .ok v =>
      let front := if pos < num then v.ids.take pos else v.ids ++ List.replicate (pos - num) 0
      .ok { v with ids := front ++ id :: v.ids.drop pos }

/-- `idvec_add` -/
def add (id : Nat) : Except Error Idvec := v.insert realloc v.ids.length id

/-- The loop of `idvec_merge_ids`. -/
def mergeFrom (numOld : Nat) : Idvec → List Nat → Idvec × Option Error
  | v, [] => (v, none)
  | v, id :: ids =>
      if (v.ids.take numOld).contains id = true then mergeFrom numOld v ids
      else
        match v.add realloc id with
        | .error err => (v, some err)
        | .ok v => mergeFrom numOld v ids

def mergeIds (ids : List Nat) : Idvec × Option Error := mergeFrom realloc v.ids.length v ids

end Idvec

structure Authhandle where
  euids : Idvec
  egids : Idvec
  auids : Idvec
  agids : Idvec

def isuid (uid : Nat) (auth : Authhandle) : Bool :=
  auth.euids.contains uid || auth.auids.contains uid

def groupmember (gid : Nat) (auth : Authhandle) : Bool :=
  auth.egids.contains gid || auth.agids.contains gid

def isroot (auth : Authhandle) : Bool := isuid 0 auth

/-- The handles there are. A port that is not among them has none. -/
abbrev Handles := List Authhandle

def authPortToHandle (s : Handles) (port : Nat) : Option Authhandle := s[port]?

def anyHandle (test : Authhandle → Bool) (auths : List (Option Authhandle)) : Bool :=
  auths.any fun auth => auth.elim false test

/-- One of the loops of `S_auth_makeauth` over the requested ids. -/
def hasAll (member : Nat → Authhandle → Bool) (auths : List (Option Authhandle)) (ids : List Nat) :
    Bool :=
  ids.all fun id => anyHandle (member id) auths

/-- The arguments of `auth_makeauth`. -/
structure Request where
  auth : Nat
  authpts : List Nat
  euids : List Nat
  auids : List Nat
  egids : List Nat
  agids : List Nat
  deriving DecidableEq

/-- Where there is memory: for the port, and for each of the vectors. -/
structure Memory where
  port : Bool
  euids : Nat → Bool
  egids : Nat → Bool
  auids : Nat → Bool
  agids : Nat → Bool

/-- The handle that `create_authhandle` makes. -/
def createAuthhandle : Authhandle := ⟨⟨[], 0⟩, ⟨[], 0⟩, ⟨[], 0⟩, ⟨[], 0⟩⟩

/-- `MERGE` in `S_auth_makeauth` -/
def merge (mem : Memory) (new : Authhandle) (r : Request) : Authhandle × Option Error :=
  match new.euids.mergeIds mem.euids r.euids with
  | (v, some err) => ({ new with euids := v }, some err)
  | (v, none) =>
      let new := { new with euids := v }
      match new.egids.mergeIds mem.egids r.egids with
      | (v, some err) => ({ new with egids := v }, some err)
      | (v, none) =>
          let new := { new with egids := v }
          match new.auids.mergeIds mem.auids r.auids with
          | (v, some err) => ({ new with auids := v }, some err)
          | (v, none) =>
              let new := { new with auids := v }
              match new.agids.mergeIds mem.agids r.agids with
              | (v, err) => ({ new with agids := v }, err)

/-- The ids may be had from the handles. -/
def verified (auths : List (Option Authhandle)) (r : Request) : Bool :=
  anyHandle isroot auths ||
    hasAll isuid auths r.euids && hasAll isuid auths r.auids &&
      hasAll groupmember auths r.egids && hasAll groupmember auths r.agids

/-- `S_auth_makeauth`. The new handle is there also where an error is returned after it has been
created. -/
def makeauth (mem : Memory) (s : Handles) (r : Request) : Handles × Except Error Nat :=
  match authPortToHandle s r.auth with
  | none => (s, .error .eopnotsupp)
  | some auth =>
      if verified (some auth :: r.authpts.map (authPortToHandle s)) r = true then
        if mem.port = true then
          match merge mem createAuthhandle r with
          | (new, some err) => (s ++ [new], .error err)
          | (new, none) => (s ++ [new], .ok s.length)
        else (s, .error .enomem)
      else (s, .error .eperm)

structure Call where
  mem : Memory
  request : Request

def step (s : Handles) (c : Call) : Option Handles := some (makeauth c.mem s c.request).1

section Merge

variable {realloc : Nat → Bool} {v w : Idvec}

theorem Idvec.ensure_ids {num : Nat} (h : v.ensure realloc num = .ok w) : w.ids = v.ids := by
  unfold Idvec.ensure at h
  split at h
  · split at h
    · cases h
      rfl
    · cases h
  · cases h
    rfl

theorem Idvec.add_ids {id : Nat} (h : v.add realloc id = .ok w) : w.ids = v.ids ++ [id] := by
  unfold Idvec.add Idvec.insert at h
  simp only [Nat.lt_irrefl, if_false, Nat.sub_self, replicate_zero, append_nil] at h
  split at h
  · cases h
  · rename_i u hensure
    cases h
    rw [Idvec.ensure_ids hensure, drop_length]

theorem Idvec.mem_mergeFrom {numOld id : Nat} {ids : List Nat}
    (h : id ∈ (Idvec.mergeFrom realloc numOld v ids).1.ids) : id ∈ v.ids ∨ id ∈ ids := by
  induction ids generalizing v with
  | nil => exact .inl h
  | cons x xs ih =>
    rw [Idvec.mergeFrom] at h
    split at h
    · rcases ih h with hv | hx
      · exact .inl hv
      · exact .inr (mem_cons_of_mem x hx)
    · split at h
      · exact .inl h
      · rename_i w hadd
        rcases ih h with hw | hx
        · rw [Idvec.add_ids hadd] at hw
          rcases mem_append.mp hw with hv | hx
          · exact .inl hv
          · exact .inr (mem_singleton.mp hx ▸ mem_cons_self)
        · exact .inr (mem_cons_of_mem x hx)

def Idvec.Within (v : Idvec) (ids : List Nat) : Prop := ∀ id, v.contains id = true → id ∈ ids

theorem Idvec.within_nil (alloced : Nat) (ids : List Nat) : Idvec.Within ⟨[], alloced⟩ ids := by
  intro id h
  cases h

theorem Idvec.within_mergeIds (realloc : Nat → Bool) (alloced : Nat) (ids : List Nat) :
    (Idvec.mergeIds realloc ⟨[], alloced⟩ ids).1.Within ids := by
  intro id h
  have hmem : id ∈ (Idvec.mergeIds realloc ⟨[], alloced⟩ ids).1.ids := by
    simpa [Idvec.contains, Idvec.tailContains] using h
  rcases Idvec.mem_mergeFrom hmem with hnil | hids
  · cases hnil
  · exact hids

end Merge

section Makeauth

variable {mem : Memory} {s t : Handles} {r : Request} {new : Authhandle}

/-- The handle has only ids that are requested. -/
structure Within (new : Authhandle) (r : Request) : Prop where
  euids : new.euids.Within r.euids
  egids : new.egids.Within r.egids
  auids : new.auids.Within r.auids
  agids : new.agids.Within r.agids

theorem merge_within (mem : Memory) (r : Request) : Within (merge mem createAuthhandle r).1 r := by
  have hnil := Idvec.within_nil 0
  have heuids := Idvec.within_mergeIds mem.euids 0 r.euids
  have hegids := Idvec.within_mergeIds mem.egids 0 r.egids
  have hauids := Idvec.within_mergeIds mem.auids 0 r.auids
  have hagids := Idvec.within_mergeIds mem.agids 0 r.agids
  simp only [merge, createAuthhandle]
  generalize Idvec.mergeIds mem.euids ⟨[], 0⟩ r.euids = euids at heuids ⊢
  obtain ⟨euids, _ | err⟩ := euids
  · generalize Idvec.mergeIds mem.egids ⟨[], 0⟩ r.egids = egids at hegids ⊢
    obtain ⟨egids, _ | err⟩ := egids
    · generalize Idvec.mergeIds mem.auids ⟨[], 0⟩ r.auids = auids at hauids ⊢
      obtain ⟨auids, _ | err⟩ := auids
      · exact ⟨heuids, hegids, hauids, hagids⟩
      · exact ⟨heuids, hegids, hauids, hnil _⟩
    · exact ⟨heuids, hegids, hnil _, hnil _⟩
  · exact ⟨heuids, hnil _, hnil _, hnil _⟩

theorem isuid_iff {uid : Nat} {auth : Authhandle} :
    isuid uid auth = true ↔ auth.euids.contains uid = true ∨ auth.auids.contains uid = true := by
  simp [isuid]

theorem groupmember_iff {gid : Nat} {auth : Authhandle} :
    groupmember gid auth = true ↔
      auth.egids.contains gid = true ∨ auth.agids.contains gid = true := by
  simp [groupmember]

theorem makeauth_cases (mem : Memory) (s : Handles) (r : Request) :
    (makeauth mem s r).1 = s ∨
      ∃ auth new, authPortToHandle s r.auth = some auth ∧ (makeauth mem s r).1 = s ++ [new] ∧
        Within new r ∧ verified (some auth :: r.authpts.map (authPortToHandle s)) r = true := by
  unfold makeauth
  split
  · exact .inl rfl
  · rename_i auth hauth
    split
    · rename_i hverified
      split
      · have hwithin := merge_within mem r
        refine .inr ⟨auth, (merge mem createAuthhandle r).1, hauth, ?_, hwithin, hverified⟩
        split
        · rename_i heq
          rw [heq]
        · rename_i heq
          rw [heq]
      · exact .inl rfl
    · exact .inl rfl

theorem exists_of_anyHandle {test : Authhandle → Bool} {auth : Authhandle}
    (hauth : authPortToHandle s r.auth = some auth)
    (h : anyHandle test (some auth :: r.authpts.map (authPortToHandle s)) = true) :
    ∃ a ∈ s, test a = true := by
  obtain ⟨o, ho, htest⟩ := any_eq_true.mp h
  have hport : ∃ port, authPortToHandle s port = o := by
    rcases mem_cons.mp ho with heq | hmem
    · exact ⟨r.auth, hauth.trans heq.symm⟩
    · obtain ⟨port, -, heq⟩ := mem_map.mp hmem
      exact ⟨port, heq⟩
  obtain ⟨port, heq⟩ := hport
  cases o with
  | none => cases htest
  | some a => exact ⟨a, mem_of_getElem? heq, htest⟩

theorem exists_of_hasAll {member : Nat → Authhandle → Bool} {auth : Authhandle} {ids : List Nat}
    (hauth : authPortToHandle s r.auth = some auth)
    (h : hasAll member (some auth :: r.authpts.map (authPortToHandle s)) ids = true) {id : Nat}
    (hid : id ∈ ids) : ∃ a ∈ s, member id a = true :=
  exists_of_anyHandle hauth (all_eq_true.mp h id hid)

/-- No handle is root. -/
def NoRoot (s : Handles) : Prop := ∀ a ∈ s, isroot a = false

/-- Every id of the handles is one of others. -/
structure IdsFrom (init s : Handles) : Prop where
  uids : ∀ a ∈ s, ∀ id, isuid id a = true → ∃ b ∈ init, isuid id b = true
  gids : ∀ a ∈ s, ∀ id, groupmember id a = true → ∃ b ∈ init, groupmember id b = true

theorem IdsFrom.refl (s : Handles) : IdsFrom s s :=
  ⟨fun a ha _ h => ⟨a, ha, h⟩, fun a ha _ h => ⟨a, ha, h⟩⟩

theorem IdsFrom.trans {init : Handles} (h : IdsFrom s t) (h₀ : IdsFrom init s) :
    IdsFrom init t := by
  constructor
  · intro a ha id hid
    obtain ⟨b, hb, hbid⟩ := h.uids a ha id hid
    exact h₀.uids b hb id hbid
  · intro a ha id hid
    obtain ⟨b, hb, hbid⟩ := h.gids a ha id hid
    exact h₀.gids b hb id hbid

theorem IdsFrom.noRoot {init : Handles} (h : IdsFrom init s) (hinit : NoRoot init) : NoRoot s := by
  intro a ha
  by_contra hroot
  obtain ⟨b, hb, hb0⟩ := h.uids a ha 0 (by simpa [isroot] using hroot)
  have hno := hinit b hb
  rw [isroot, hb0] at hno
  cases hno

theorem makeauth_idsFrom (hroot : NoRoot s) (mem : Memory) (r : Request) :
    IdsFrom s (makeauth mem s r).1 := by
  rcases makeauth_cases mem s r with heq | ⟨auth, new, hauth, heq, hwithin, hverified⟩
  · rw [heq]
    exact .refl s
  · have hnot : anyHandle isroot (some auth :: r.authpts.map (authPortToHandle s)) = false := by
      by_contra hany
      obtain ⟨a, ha, htest⟩ := exists_of_anyHandle hauth (by simpa using hany)
      rw [hroot a ha] at htest
      cases htest
    unfold verified at hverified
    rw [hnot, Bool.false_or, Bool.and_eq_true, Bool.and_eq_true, Bool.and_eq_true] at hverified
    obtain ⟨⟨⟨heuids, hauids⟩, hegids⟩, hagids⟩ := hverified
    rw [heq]
    constructor
    · intro a ha id hid
      rcases mem_append.mp ha with ha | ha
      · exact ⟨a, ha, hid⟩
      · rw [mem_singleton.mp ha] at hid
        rcases isuid_iff.mp hid with hid | hid
        · exact exists_of_hasAll hauth heuids (hwithin.euids id hid)
        · exact exists_of_hasAll hauth hauids (hwithin.auids id hid)
    · intro a ha id hid
      rcases mem_append.mp ha with ha | ha
      · exact ⟨a, ha, hid⟩
      · rw [mem_singleton.mp ha] at hid
        rcases groupmember_iff.mp hid with hid | hid
        · exact exists_of_hasAll hauth hegids (hwithin.egids id hid)
        · exact exists_of_hasAll hauth hagids (hwithin.agids id hid)

/-- From handles none of which is root, no run of `auth_makeauth` calls gives an id to a handle that
no handle had at first. -/
theorem makeauth_creates_no_ids {init : Handles} (hinit : ∀ a ∈ init, isuid 0 a = false)
    (h : Reach step (fun _ _ => True) init s) :
    ∀ a ∈ s, (∀ id, isuid id a = true → ∃ b ∈ init, isuid id b = true) ∧
      ∀ id, groupmember id a = true → ∃ b ∈ init, groupmember id b = true := by
  have hinv : IdsFrom init s := by
    apply Reach.invariant (IdsFrom init) (.refl init) _ h
    intro s c t hinv _ hs
    cases hs
    exact (makeauth_idsFrom (hinv.noRoot hinit) c.mem c.request).trans hinv
  intro a ha
  exact ⟨hinv.uids a ha, hinv.gids a ha⟩

def twoUsers : Handles :=
  [⟨⟨[1], 1⟩, ⟨[10], 1⟩, ⟨[], 0⟩, ⟨[], 0⟩⟩, ⟨⟨[2], 1⟩, ⟨[], 0⟩, ⟨[3], 1⟩, ⟨[20], 1⟩⟩]

theorem makeauth_creates_no_ids_joint :
    ∃ s, Reach step (fun _ _ => True) twoUsers s ∧ s.length = 3 ∧
      ∀ a ∈ s, ∀ id, isuid id a = true → ∃ b ∈ twoUsers, isuid id b = true := by
  have hreach : Reach step (fun _ _ => True) twoUsers
      (makeauth ⟨true, fun _ => true, fun _ => true, fun _ => true, fun _ => true⟩ twoUsers
        ⟨0, [1, 7], [2, 1], [3], [], [10, 20]⟩).1 :=
    .step ⟨_, _⟩ .start trivial rfl
  refine ⟨_, hreach, by decide, ?_⟩
  intro a ha
  exact (makeauth_creates_no_ids (by decide) hreach a ha).1

end Makeauth

end Hurd.Auth
