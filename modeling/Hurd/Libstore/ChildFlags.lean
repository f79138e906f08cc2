import Hurd.Libstore.Store
import Mathlib.Data.List.Induction

/-!
# Flags of stores and of their children

`store_set_flags` and `store_clear_flags` of `libstore/flags.c`, which leave the flags of the
backend to the class of the store, and `store_set_child_flags` and `store_clear_child_flags` of
`libstore/kids.c`, which try to undo what they have done to the children of a store when one of the
children fails.
-/

namespace Hurd.Libstore

open List Option

def storeEnforced : BitVec 32 := 0x2000

def storeInactive : BitVec 32 := 0x4000

/-- `EINVAL`, or an error from outside of the library. -/
inductive FlagError where
  | inval
  | other (code : Nat)
  deriving DecidableEq, Repr

/-- The flags of a store, and what the functions of its class look at and change besides. What the
kernel is going to answer to them is a part of it. -/
structure Flagged (σ : Type) where
  flags : BitVec 32
  rest : σ
  deriving DecidableEq, Repr

/-- The functions `set_flags` and `clear_flags` of the class that a store is of. There is no result
when the class has no such function. All classes record the flags they have been told to set, and
change none when they fail. -/
structure FlagClass (σ : Type) where
  setFlags : BitVec 32 → Flagged σ → Option (Option FlagError × Flagged σ)
  clearFlags : BitVec 32 → Flagged σ → Option (Option FlagError × Flagged σ)
  set_ok : ∀ new s s', new &&& storeBackendFlags ≠ 0 → setFlags new s = some (none, s') →
    s'.flags = s.flags ||| new
  set_error : ∀ new s e s', setFlags new s = some (some e, s') → s'.flags = s.flags
  clear_error : ∀ kill s e s', clearFlags kill s = some (some e, s') → s'.flags = s.flags

section Source

variable {σ : Type} (c : FlagClass σ)

def storeSetFlags (flags : BitVec 32) (store : Flagged σ) : Option FlagError × Flagged σ :=
  let new := flags &&& ~~~store.flags
  let r :=
    if new &&& storeBackendFlags ≠ 0 then (c.setFlags new store).getD (some .inval, store)
    else (none, store)
  match r with
  | (some e, store) => (some e, store)
  | (none, store) =>
      (none, { store with flags := store.flags ||| (new &&& ~~~storeBackendFlags) })

def storeClearFlags (flags : BitVec 32) (store : Flagged σ) : Option FlagError × Flagged σ :=
  let kill := flags &&& store.flags
  let r :=
    if kill &&& storeBackendFlags ≠ 0 then (c.clearFlags kill store).getD (some .inval, store)
    else (none, store)
  match r with
  | (some e, store) => (some e, store)
  | (none, store) =>
      (none, { store with flags := store.flags &&& ~~~(kill &&& ~~~storeBackendFlags) })

/-- The first loop of the two functions below: the error that it ends with, how many children it
has called `change` for, and the children. -/
def changeKids (change : Flagged σ → Option FlagError × Flagged σ) :
    List (Flagged σ) → Option FlagError × Nat × List (Flagged σ)
  | [] => (none, 0, [])
  | kid :: kids =>
      match change kid with
      | (some e, kid) => (some e, 1, kid :: kids)
      | (none, kid) =>
          let r := changeKids change kids
          (r.1, r.2.1 + 1, kid :: r.2.2)

/-- The second loop, `while (i-- > 0)`, in which errors are ignored. -/
def undoKids (undo : BitVec 32 → Flagged σ → Option FlagError × Flagged σ)
    (oldChildFlags : List (BitVec 32)) : Nat → List (Flagged σ) → List (Flagged σ)
  | 0, kids => kids
  | i + 1, kids =>
      undoKids undo oldChildFlags i
        (kids.modify i fun kid => (undo (oldChildFlags.getD i 0) kid).2)

/-- `store_set_child_flags` of a store with the flags `own`. The result holds its flags and its
children. -/
def storeSetChildFlags (flags own : BitVec 32) (children : List (Flagged σ)) :
    Option FlagError × BitVec 32 × List (Flagged σ) :=
  match changeKids (storeSetFlags c flags) children with
  | (some e, i, kids) =>
      (some e, own, undoKids (fun old => storeClearFlags c (flags &&& ~~~old))
        (children.map Flagged.flags) i kids)
  | (none, _, kids) => (none, own ||| flags, kids)

def storeClearChildFlags (flags own : BitVec 32) (children : List (Flagged σ)) :
    Option FlagError × BitVec 32 × List (Flagged σ) :=
  match changeKids (storeClearFlags c flags) children with
  | (some e, i, kids) =>
      (some e, own, undoKids (fun old => storeSetFlags c (flags &&& ~~~old))
        (children.map Flagged.flags) i kids)
  | (none, _, kids) => (none, own &&& ~~~flags, kids)

end Source

theorem getLsbD_storeInactive : ∀ i < 32, storeInactive.getLsbD i = decide (i = 14) := by decide

theorem eq_storeInactive {flags : BitVec 32} (h : flags &&& ~~~storeInactive = 0)
    (hne : flags &&& storeBackendFlags ≠ 0) : flags = storeInactive := by
  have hbit : ∀ i < 32, flags.getLsbD i = true → i = 14 := by
    intro i hi hflag
    have hzero := congrArg (fun x => x.getLsbD i) h
    have hinactive := getLsbD_storeInactive i hi
    simp at hzero
    grind
  by_cases hset : flags.getLsbD 14 = true
  · apply BitVec.eq_of_getLsbD_eq
    intro i hi
    have hinactive := getLsbD_storeInactive i hi
    have hflag := hbit i hi
    by_cases h14 : i = 14
    · subst h14
      rw [hset, hinactive]
      rfl
    · rw [hinactive]
      grind
  · exfalso
    apply hne
    have hzero : flags = 0 := by
      apply BitVec.eq_of_getLsbD_eq
      intro i hi
      have hflag := hbit i hi
      simp only [BitVec.ofNat_eq_ofNat, BitVec.getLsbD_zero]
      grind
    rw [hzero]
    rfl

section Classes

variable {σ τ : Type}

/-- What the functions of a class that can be closed and opened again do beside the flags: the
check of the flags that are to be set, closing, and opening, which may change the flags. -/
structure Reopening (σ : Type) where
  check : BitVec 32 → Flagged σ → Option FlagError
  close : σ → σ
  reopen : Flagged σ → Except (FlagError × σ) (Flagged σ)

/-- The two functions, which `device.c`, `file.c`, `task.c` and `copy.c` have alike. -/
def Reopening.flagClass (r : Reopening σ) : FlagClass σ where
  setFlags flags store := some <|
    if flags &&& ~~~(storeInactive ||| storeEnforced) ≠ 0 then (some .inval, store)
    else
      match r.check flags store with
      | some e => (some e, store)
      | none =>
          (none, ⟨store.flags ||| flags,
            if flags &&& storeInactive ≠ 0 then r.close store.rest else store.rest⟩)
  clearFlags flags store := some <|
    if flags &&& ~~~(storeInactive ||| storeEnforced) ≠ 0 then (some .inval, store)
    else if flags &&& storeInactive ≠ 0 then
      match r.reopen store with
      | .error (e, rest) => (some e, ⟨store.flags, rest⟩)
      | .ok store => (none, ⟨store.flags &&& ~~~flags, store.rest⟩)
    else (none, ⟨store.flags &&& ~~~flags, store.rest⟩)
  set_ok new s s' _ h := by
    rw [some_inj] at h
    split at h
    · cases h
    · split at h <;> cases h
      rfl
  set_error new s e s' h := by
    rw [some_inj] at h
    split at h
    · cases h
      rfl
    · split at h <;> cases h
      rfl
  clear_error kill s e s' h := by
    rw [some_inj] at h
    split at h
    · cases h
      rfl
    · split at h
      · split at h <;> cases h
        rfl
      · cases h

/-- `dev_set_flags` and `dev_clear_flags` -/
def devFlags (enforced : σ → Option FlagError) (dclose : σ → σ)
    (dopen : Flagged σ → Except (FlagError × σ) (Flagged σ)) : FlagClass σ :=
  Reopening.flagClass
    { check := fun flags store =>
        if (store.flags ||| flags) &&& storeInactive = 0 then enforced store.rest else none
      close := dclose
      reopen := dopen }

/-- `file_set_flags` and `file_clear_flags` -/
def fileFlags (enforced : σ → Option FlagError) (ficlose : σ → σ)
    (fiopen : Flagged σ → Except (FlagError × σ) (Flagged σ)) : FlagClass σ :=
  devFlags enforced ficlose fiopen

/-- `task_set_flags` and `task_clear_flags`. Whether the range is the whole address space is
`whole`. -/
def taskFlags (whole : σ → Bool) (tclose : σ → σ) (topen : σ → Except (FlagError × σ) σ) :
    FlagClass σ :=
  Reopening.flagClass
    { check := fun flags store =>
        if flags &&& storeEnforced ≠ 0 ∧ !whole store.rest then some .inval else none
      close := tclose
      reopen := fun store => (topen store.rest).map fun rest => ⟨store.flags, rest⟩ }

/-- `copy_set_flags` and `copy_clear_flags` -/
def copyFlags : FlagClass σ :=
  Reopening.flagClass { check := fun _ _ => none, close := id, reopen := .ok }

/-- `nbd_set_flags` and `nbd_clear_flags`, in which the first error is overwritten. -/
def nbdFlags (nbdclose : σ → σ) (nbdopen : σ → Except (FlagError × σ) σ) : FlagClass σ where
  setFlags flags store := some <|
    if flags &&& ~~~storeInactive ≠ 0 then (some .inval, store)
    else (none, ⟨store.flags ||| storeInactive, nbdclose store.rest⟩)
  clearFlags _ store := some <|
    match nbdopen store.rest with
    | .error (e, rest) => (some e, ⟨store.flags, rest⟩)
    | .ok rest => (none, ⟨store.flags &&& ~~~storeInactive, rest⟩)
  set_ok new s s' hnew h := by
    rw [some_inj] at h
    split at h
    · cases h
    · cases h
      rename_i hone
      rw [eq_storeInactive (not_not.mp hone) hnew]
  set_error new s e s' h := by
    rw [some_inj] at h
    split at h
    · cases h
      rfl
    · cases h
  clear_error kill s e s' h := by
    rw [some_inj] at h
    split at h <;> cases h
    rfl

/-- `noflags` of `unknown.c` -/
def noflags : FlagClass σ where
  setFlags _ store := some (some .inval, store)
  clearFlags _ store := some (some .inval, store)
  set_ok new s s' _ h := by cases h
  set_error new s e s' h := by cases h; rfl
  clear_error kill s e s' h := by cases h; rfl

/-- A class without the two functions, as those of `zero.c` and `memobj.c`. -/
def noMethods : FlagClass σ where
  setFlags _ _ := none
  clearFlags _ _ := none
  set_ok new s s' _ h := by cases h
  set_error new s e s' h := by cases h
  clear_error kill s e s' h := by cases h

/-- The classes of `remap.c`, `stripe.c` and `mvol.c`, whose stores have children of the class `c`
themselves. -/
def childFlags (c : FlagClass σ) : FlagClass (List (Flagged σ)) where
  setFlags flags store :=
    let r := storeSetChildFlags c flags store.flags store.rest
    some (r.1, ⟨r.2.1, r.2.2⟩)
  clearFlags flags store :=
    let r := storeClearChildFlags c flags store.flags store.rest
    some (r.1, ⟨r.2.1, r.2.2⟩)
  set_ok new s s' _ h := by
    rw [some_inj] at h
    unfold storeSetChildFlags at h
    split at h <;> cases h
    rfl
  set_error new s e s' h := by
    rw [some_inj] at h
    unfold storeSetChildFlags at h
    split at h <;> cases h
    rfl
  clear_error kill s e s' h := by
    rw [some_inj] at h
    unfold storeClearChildFlags at h
    split at h <;> cases h
    rfl

def Flagged.map (f : σ → τ) (store : Flagged σ) : Flagged τ := ⟨store.flags, f store.rest⟩

theorem result_map {f : σ → τ} {r : Option (Option FlagError × Flagged σ)} {e : Option FlagError}
    {s' : Flagged τ} (h : (r.map fun r => (r.1, r.2.map f)) = some (e, s')) :
    ∃ t, r = some (e, t) ∧ s'.flags = t.flags := by
  obtain ⟨⟨e', t⟩, rfl, heq⟩ := map_eq_some_iff.mp h
  cases heq
  exact ⟨t, rfl, rfl⟩

/-- A store of the class `c` or of the class `d`. -/
def FlagClass.or (c : FlagClass σ) (d : FlagClass τ) : FlagClass (σ ⊕ τ) where
  setFlags flags store :=
    match store.rest with
    | .inl rest => (c.setFlags flags ⟨store.flags, rest⟩).map fun r => (r.1, r.2.map .inl)
    | .inr rest => (d.setFlags flags ⟨store.flags, rest⟩).map fun r => (r.1, r.2.map .inr)
  clearFlags flags store :=
    match store.rest with
    | .inl rest => (c.clearFlags flags ⟨store.flags, rest⟩).map fun r => (r.1, r.2.map .inl)
    | .inr rest => (d.clearFlags flags ⟨store.flags, rest⟩).map fun r => (r.1, r.2.map .inr)
  set_ok new s s' hnew h := by
    split at h <;> obtain ⟨t, hr, hflags⟩ := result_map h
    · exact hflags.trans (c.set_ok _ _ _ hnew hr)
    · exact hflags.trans (d.set_ok _ _ _ hnew hr)
  set_error new s e s' h := by
    split at h <;> obtain ⟨t, hr, hflags⟩ := result_map h
    · exact hflags.trans (c.set_error _ _ _ _ hr)
    · exact hflags.trans (d.set_error _ _ _ _ hr)
  clear_error kill s e s' h := by
    split at h <;> obtain ⟨t, hr, hflags⟩ := result_map h
    · exact hflags.trans (c.clear_error _ _ _ _ hr)
    · exact hflags.trans (d.clear_error _ _ _ _ hr)

end Classes

section Bits

variable {f g b : BitVec 32}

theorem or_backend_or_generic : g ||| (f &&& ~~~g) ||| (f &&& ~~~g &&& ~~~b) = g ||| f := by
  ext i hi
  simp only [BitVec.getElem_or, BitVec.getElem_and, BitVec.getElem_not]
  grind

theorem or_generic (h : f &&& ~~~g &&& b = 0) : g ||| (f &&& ~~~g &&& ~~~b) = g ||| f := by
  ext i hi
  have hbit := congrArg (fun x => x.getLsbD i) h
  simp only [BitVec.getLsbD_and, BitVec.getLsbD_not] at hbit
  simp only [BitVec.getElem_or, BitVec.getElem_and, BitVec.getElem_not]
  grind

theorem or_new_eq_iff {k : BitVec 32} : g ||| (f &&& ~~~k) = k ↔ g = k ∧ f &&& ~~~k = 0 := by
  constructor
  · intro h
    have hnone : f &&& ~~~k = 0 := by
      ext i hi
      have hbit := congrArg (fun x => x.getLsbD i) h
      simp at hbit ⊢
      grind
    exact ⟨by simpa [hnone] using h, hnone⟩
  · intro h
    simp [h.1, h.2]

theorem and_new_or : f &&& ~~~g &&& (g ||| f) = f &&& ~~~g := by
  ext i hi
  simp only [BitVec.getElem_or, BitVec.getElem_and, BitVec.getElem_not]
  grind

theorem or_and_not_new (h : f &&& ~~~g &&& b = 0) :
    (g ||| f) &&& ~~~(f &&& ~~~g &&& ~~~b) = g := by
  ext i hi
  have hbit := congrArg (fun x => x.getLsbD i) h
  simp at hbit ⊢
  grind

theorem and_not_of_or_eq (h : g ||| f = g) : f &&& ~~~g = 0 := by
  ext i hi
  have hbit := congrArg (fun x => x.getLsbD i) h
  simp at hbit ⊢
  grind

theorem and_not_and : f &&& ~~~g &&& g = 0 := by
  ext i hi
  simp

end Bits

variable {σ : Type} {c : FlagClass σ} {flags : BitVec 32} {s s' : Flagged σ} {e : FlagError}

theorem storeSetFlags_cases (c : FlagClass σ) (flags : BitVec 32) (s : Flagged σ) :
    (∃ e s', storeSetFlags c flags s = (some e, s') ∧ s'.flags = s.flags) ∨
      ∃ s', storeSetFlags c flags s = (none, s') ∧ s'.flags = s.flags ||| flags := by
  unfold storeSetFlags
  by_cases hbackend : flags &&& ~~~s.flags &&& storeBackendFlags ≠ 0
  · simp only [if_pos hbackend]
    cases hset : c.setFlags (flags &&& ~~~s.flags) s with
    | none => exact .inl ⟨.inval, s, rfl, rfl⟩
    | some r =>
      rcases r with ⟨e | e, s'⟩
      · right
        refine ⟨_, rfl, ?_⟩
        dsimp only
        rw [c.set_ok _ _ _ hbackend hset, or_backend_or_generic]
      · exact .inl ⟨e, s', rfl, c.set_error _ _ _ _ hset⟩
  · simp only [if_neg hbackend]
    right
    exact ⟨_, rfl, or_generic (not_not.mp hbackend)⟩

theorem storeClearFlags_error (h : storeClearFlags c flags s = (some e, s')) :
    s'.flags = s.flags := by
  unfold storeClearFlags at h
  by_cases hbackend : flags &&& s.flags &&& storeBackendFlags ≠ 0
  · simp only [if_pos hbackend] at h
    cases hclear : c.clearFlags (flags &&& s.flags) s with
    | none =>
      rw [hclear] at h
      cases h
      rfl
    | some r =>
      rw [hclear] at h
      rcases r with ⟨e' | e', s''⟩
      · cases h
      · cases h
        exact c.clear_error _ _ _ _ hclear
  · simp only [if_neg hbackend] at h
    cases h

theorem storeClearFlags_nothing (h : flags &&& s.flags = 0) :
    (storeClearFlags c flags s).2.flags = s.flags := by
  have hnone : ~~~((0 : BitVec 32) &&& ~~~storeBackendFlags) = BitVec.allOnes 32 := by decide
  simp only [storeClearFlags, h]
  rw [if_neg (by decide)]
  dsimp only
  rw [hnone, BitVec.and_allOnes]

variable {done rest : List (Flagged σ)} {kid : Flagged σ}

theorem changeKids_error {change : Flagged σ → Option FlagError × Flagged σ}
    (hdone : ∀ k ∈ done, (change k).1 = none)
    (hkid : (change kid).1 = some e) :
    changeKids change (done ++ kid :: rest) =
      (some e, done.length + 1, (done ++ [kid]).map (fun k => (change k).2) ++ rest) := by
  induction done with
  | nil =>
    rw [nil_append, changeKids]
    rw [show change kid = (some e, (change kid).2) from Prod.ext hkid rfl]
    rfl
  | cons k done ih =>
    rw [cons_append, changeKids]
    rw [show change k = (none, (change k).2) from Prod.ext (hdone k mem_cons_self) rfl]
    simp [ih fun k' hk' => hdone k' (mem_cons_of_mem k hk')]

theorem undoKids_eq (change : Flagged σ → Option FlagError × Flagged σ)
    (undo : BitVec 32 → Flagged σ → Option FlagError × Flagged σ) (done rest : List (Flagged σ))
    (old : List (BitVec 32)) :
    undoKids undo (done.map Flagged.flags ++ old) done.length
        (done.map (fun k => (change k).2) ++ rest) =
      done.map (fun k => (undo k.flags (change k).2).2) ++ rest := by
  induction done using List.reverseRecOn generalizing rest old with
  | nil => rfl
  | append_singleton done kid ih =>
    have hget : ((done ++ [kid]).map Flagged.flags ++ old).getD done.length 0 = kid.flags := by
      simp
    have hmodify : ((done ++ [kid]).map (fun k => (change k).2) ++ rest).modify done.length
        (fun k => (undo kid.flags k).2) =
        done.map (fun k => (change k).2) ++ (undo kid.flags (change kid).2).2 :: rest := by
      simp [modify_eq_take_cons_drop, drop_append]
    rw [length_append, length_singleton, undoKids, hget, hmodify, map_append,
      append_assoc, ih]
    simp

theorem undoKids_changeKids {change : Flagged σ → Option FlagError × Flagged σ}
    (undo : BitVec 32 → Flagged σ → Option FlagError × Flagged σ) (rest : List (Flagged σ))
    (hdone : ∀ k ∈ done, (change k).1 = none) (hkid : (change kid).1 = some e) :
    ∃ kids, changeKids change (done ++ kid :: rest) = (some e, done.length + 1, kids) ∧
      undoKids undo ((done ++ kid :: rest).map Flagged.flags) (done.length + 1) kids =
        (done ++ [kid]).map (fun k => (undo k.flags (change k).2).2) ++ rest := by
  have hundo := undoKids_eq change undo (done ++ [kid]) rest (rest.map Flagged.flags)
  rw [← map_append, append_assoc, singleton_append, length_append,
    length_singleton] at hundo
  exact ⟨_, changeKids_error hdone hkid, hundo⟩

variable {own : BitVec 32}

/-- The flags that are added to a child can be taken away again: none of them is a flag of the
backend, or the class clears these and no others. -/
def ClearsAdded (c : FlagClass σ) (flags : BitVec 32) (kid : Flagged σ) : Prop :=
  flags &&& ~~~kid.flags &&& storeBackendFlags = 0 ∨
    ∃ kid', c.clearFlags (flags &&& ~~~kid.flags) (storeSetFlags c flags kid).2 =
        some (none, kid') ∧
      kid'.flags &&& ~~~(flags &&& ~~~kid.flags &&& ~~~storeBackendFlags) = kid.flags

theorem clearsAdded_iff (h : (storeSetFlags c flags kid).1 = none) :
    (storeClearFlags c (flags &&& ~~~kid.flags) (storeSetFlags c flags kid).2).2.flags =
      kid.flags ↔ ClearsAdded c flags kid := by
  obtain ⟨e, s', hset, -⟩ | ⟨kid', hset, hflags⟩ := storeSetFlags_cases c flags kid
  · rw [hset] at h
    cases h
  have hkill : flags &&& ~~~kid.flags &&& kid'.flags = flags &&& ~~~kid.flags := by
    rw [hflags, and_new_or]
  simp only [ClearsAdded, hset, storeClearFlags, hkill]
  by_cases hbackend : flags &&& ~~~kid.flags &&& storeBackendFlags = 0
  · rw [if_neg (not_not.mpr hbackend)]
    dsimp only
    rw [hflags]
    simp only [hbackend, true_or, iff_true]
    exact or_and_not_new hbackend
  · rw [if_pos hbackend]
    simp only [hbackend, false_or]
    -- the child has flags that it did not have
    have hne : kid'.flags ≠ kid.flags := by
      intro heq
      rw [hflags] at heq
      exact hbackend (by simp [and_not_of_or_eq heq])
    cases hclear : c.clearFlags (flags &&& ~~~kid.flags) kid' with
    | none => simp [hne]
    | some r =>
      rcases r with ⟨e | e, s'⟩
      · simp
      · simp [c.clear_error _ _ _ _ hclear, hne]

theorem setOthers_iff : (storeSetFlags c (flags &&& ~~~kid.flags) s).2.flags = kid.flags ↔
    s.flags = kid.flags ∧ (flags &&& ~~~kid.flags = 0 ∨
      (storeSetFlags c (flags &&& ~~~kid.flags) s).1 ≠ none) := by
  obtain ⟨e, s', hset, hflags⟩ | ⟨s', hset, hflags⟩ :=
    storeSetFlags_cases c (flags &&& ~~~kid.flags) s
  · simp [hset, hflags]
  · simp [hset, hflags, or_new_eq_iff]

theorem storeSetChildFlags_error (hdone : ∀ k ∈ done, (storeSetFlags c flags k).1 = none)
    (hkid : (storeSetFlags c flags kid).1 = some e) :
    storeSetChildFlags c flags own (done ++ kid :: rest) = (some e, own,
      (done ++ [kid]).map (fun k => (storeClearFlags c (flags &&& ~~~k.flags)
        (storeSetFlags c flags k).2).2) ++ rest) := by
  obtain ⟨kids, hchange, hundo⟩ :=
    undoKids_changeKids (fun old => storeClearFlags c (flags &&& ~~~old)) rest hdone hkid
  simp only [storeSetChildFlags, hchange, hundo]

theorem storeClearChildFlags_error (hdone : ∀ k ∈ done, (storeClearFlags c flags k).1 = none)
    (hkid : (storeClearFlags c flags kid).1 = some e) :
    storeClearChildFlags c flags own (done ++ kid :: rest) = (some e, own,
      (done ++ [kid]).map (fun k => (storeSetFlags c (flags &&& ~~~k.flags)
        (storeClearFlags c flags k).2).2) ++ rest) := by
  obtain ⟨kids, hchange, hundo⟩ :=
    undoKids_changeKids (fun old => storeSetFlags c (flags &&& ~~~old)) rest hdone hkid
  simp only [storeClearChildFlags, hchange, hundo]

theorem restored_iff (f : Flagged σ → Flagged σ) :
    ((done ++ [kid]).map f ++ rest).map Flagged.flags = (done ++ kid :: rest).map Flagged.flags ↔
      (∀ k ∈ done, (f k).flags = k.flags) ∧ (f kid).flags = kid.flags := by
  have hsplit : ∀ kids : List (Flagged σ), (kids ++ rest).map Flagged.flags =
      kids.map Flagged.flags ++ rest.map Flagged.flags := fun _ => List.map_append
  rw [List.append_cons done kid rest, hsplit, hsplit, List.append_left_inj, List.map_map,
    List.map_inj_left]
  simp only [List.mem_append, List.mem_singleton, or_imp, forall_and, forall_eq,
    Function.comp_apply]

/-- The flags that a child does not have are none, or `store_set_flags` refuses to set them once
the others have been cleared. -/
def RefusesOthers (c : FlagClass σ) (flags : BitVec 32) (kid : Flagged σ) : Prop :=
  flags &&& ~~~kid.flags = 0 ∨
    (storeSetFlags c (flags &&& ~~~kid.flags) (storeClearFlags c flags kid).2).1 ≠ none

/-- When a child fails its error is returned. The children have the flags they had before if, and
only if, in a call to set flags the classes of the children in front of it can clear what has been
added; and in a call to clear flags nothing has been cleared of these children, and neither they
nor the child that fails can be given the flags they did not have. -/
theorem child_flags_restored_iff (c : FlagClass σ) (flags own : BitVec 32)
    (done rest : List (Flagged σ)) (kid : Flagged σ) (e : FlagError) :
    ((∀ k ∈ done, (storeSetFlags c flags k).1 = none) →
      (storeSetFlags c flags kid).1 = some e →
      ∃ kids, storeSetChildFlags c flags own (done ++ kid :: rest) = (some e, own, kids) ∧
        (kids.map Flagged.flags = (done ++ kid :: rest).map Flagged.flags ↔
          ∀ k ∈ done, ClearsAdded c flags k)) ∧
    ((∀ k ∈ done, (storeClearFlags c flags k).1 = none) →
      (storeClearFlags c flags kid).1 = some e →
      ∃ kids, storeClearChildFlags c flags own (done ++ kid :: rest) = (some e, own, kids) ∧
        (kids.map Flagged.flags = (done ++ kid :: rest).map Flagged.flags ↔
          (∀ k ∈ done, (storeClearFlags c flags k).2.flags = k.flags) ∧
            ∀ k ∈ done ++ [kid], RefusesOthers c flags k)) := by
  constructor
  · intro hdone hkid
    refine ⟨_, storeSetChildFlags_error hdone hkid, ?_⟩
    rw [restored_iff]
    -- the child that fails has none of the flags that are cleared of it
    have hfails : (storeSetFlags c flags kid).2.flags = kid.flags := by
      obtain ⟨e', s', hset, hflags⟩ | ⟨s', hset, -⟩ :=
        storeSetFlags_cases c flags kid
      · rw [hset]
        exact hflags
      · rw [hset] at hkid
        cases hkid
    have hsame : (storeClearFlags c (flags &&& ~~~kid.flags)
        (storeSetFlags c flags kid).2).2.flags = kid.flags := by
      rw [storeClearFlags_nothing (by rw [hfails, and_not_and]), hfails]
    rw [and_iff_left hsame]
    exact forall₂_congr fun k hk => clearsAdded_iff (hdone k hk)
  · intro hdone hkid
    refine ⟨_, storeClearChildFlags_error hdone hkid, ?_⟩
    have hfails : (storeClearFlags c flags kid).2.flags = kid.flags :=
      storeClearFlags_error (Prod.ext hkid rfl)
    simp only [restored_iff, setOthers_iff, hfails, true_and, forall_and, mem_append,
      mem_singleton, or_imp, forall_eq, RefusesOthers, and_assoc]

/-- Copies, and stores of a class without the two functions. -/
def copiesOrZeros : FlagClass (Unit ⊕ Unit) := copyFlags.or noMethods

theorem child_flags_restored_iff_copies :
    (∃ kids, storeSetChildFlags copiesOrZeros storeInactive 0 [⟨0, .inl ()⟩, ⟨0, .inr ()⟩] =
        (some .inval, 0, kids) ∧ kids.map Flagged.flags = [0, 0]) ∧
      ∃ kids, storeClearChildFlags copiesOrZeros 0x1000 0x1000 [⟨0, .inl ()⟩, ⟨0x1000, .inl ()⟩] =
        (some .inval, 0x1000, kids) ∧ kids.map Flagged.flags = [0, 0x1000] := by
  constructor
  · obtain ⟨kids, hkids, hiff⟩ := (child_flags_restored_iff copiesOrZeros storeInactive 0
      [⟨0, .inl ()⟩] [] ⟨0, .inr ()⟩ .inval).1 (by decide) (by decide)
    refine ⟨kids, hkids, hiff.mpr ?_⟩
    intro k hk
    rw [mem_singleton.mp hk]
    exact .inr ⟨⟨0, .inl ()⟩, by decide, by decide⟩
  · obtain ⟨kids, hkids, hiff⟩ := (child_flags_restored_iff copiesOrZeros 0x1000 0x1000
      [⟨0, .inl ()⟩] [] ⟨0x1000, .inl ()⟩ .inval).2 (by decide) (by decide)
    refine ⟨kids, hkids, hiff.mpr ⟨by decide, ?_⟩⟩
    intro k hk
    obtain rfl | rfl : k = ⟨0, .inl ()⟩ ∨ k = ⟨0x1000, .inl ()⟩ := by simpa using hk
    · exact .inr (by decide)
    · exact .inl (by decide)

/-- Files that can be opened, or that are not there any more. -/
def files : FlagClass Bool :=
  fileFlags (fun _ => none) id fun store =>
    if store.rest then .ok store else .error (.other 2, false)

/-- Two files are to be opened, and the second one is not there: the first one stays open. -/
theorem first_file_stays_open :
    storeClearChildFlags files storeInactive storeInactive
        [⟨storeInactive, true⟩, ⟨storeInactive, false⟩] =
      (some (.other 2), storeInactive, [⟨0, true⟩, ⟨storeInactive, false⟩]) := by
  decide

end Hurd.Libstore
