import Hurd.Libihash.OutOfMemory

/-!
# The cleanup function of a hash table

The values in a table are owed a call of its cleanup function when they leave: when they are
removed, when another value takes their place, and when the table is destroyed.
-/

namespace Hurd.Ihash

open List Option

variable {V : Type*}

def Slot.held : Slot V → Multiset V
  | live v => {v}
  | empty | deleted => 0

/-- The values in the table, each as often as it is stored. -/
def contents (ht : Table V) : Multiset V := ∑ i ∈ Finset.range ht.size, (ht.items i).value.held

/-- The values of the items that `HURD_IHASH_ITERATE` visits. -/
def iterate (ht : Table V) : List V := (List.range ht.size).filterMap fun i => (ht.items i).value.get?

/-- The calls of the cleanup function when `hurd_ihash_destroy` is through. -/
def hurdIhashDestroy (ht : Table V) : List (CleanupArg V) :=
  if ht.cleanup then ht.cleaned ++ (iterate ht).map .value else ht.cleaned

section Contents

variable {ht ht' : Table V} {idx : Nat}

theorem coe_iterate (ht : Table V) : (iterate ht : Multiset V) = contents ht := by
  simp only [iterate, contents]
  induction ht.size with
  | zero => rfl
  | succ n ih =>
    rw [range_succ, filterMap_append, ← Multiset.coe_add, ih, Finset.sum_range_succ]
    cases hv : (ht.items n).value <;> simp [hv, Slot.held, Slot.get?]

theorem contents_update (hidx : idx < ht.size) (item : Item V) (hsize : ht'.size = ht.size)
    (hitems : ht'.items = Function.update ht.items idx item) :
    contents ht' + (ht.items idx).value.held = contents ht + item.value.held := by
  have hsum := sum_update (Finset.range ht.size) (fun it : Item V => it.value.held) ht.items
    (by simpa using hidx) item
  simpa only [contents, hsize, hitems] using hsum

/-- Between the two tables the cleanup function was called once for each value that left, while
`came` has come in. -/
def Conserves (ht : Table V) (came : Multiset V) (ht' : Table V) : Prop :=
  ∃ gone : List V, ht'.cleaned = ht.cleaned ++ gone.map .value ∧
    contents ht + came = contents ht' + gone

theorem Conserves.refl (ht : Table V) : Conserves ht 0 ht := ⟨[], by simp, by simp⟩

theorem Conserves.trans {ht₁ ht₂ : Table V} {a b : Multiset V} (h : Conserves ht a ht₁)
    (h' : Conserves ht₁ b ht₂) : Conserves ht (a + b) ht₂ := by
  obtain ⟨gone, hcalls, hsum⟩ := h
  obtain ⟨gone', hcalls', hsum'⟩ := h'
  refine ⟨gone ++ gone', by simp [hcalls', hcalls], ?_⟩
  calc contents ht + (a + b) = contents ht₁ + b + gone := by
        rw [← add_assoc, hsum, add_right_comm]
    _ = contents ht₂ + (gone ++ gone' : List V) := by
        rw [hsum', add_assoc, add_comm (gone' : Multiset V), Multiset.coe_add]

variable [DecidableEq V] {key : Nat} {value : V}

theorem conserves_put (hclean : ht.cleanup = true) (hidx : idx < ht.size) :
    Conserves ht {value} (put key value idx ht) := by
  have hsum : contents (put key value idx ht) + _ = contents ht + _ :=
    contents_update hidx { value := .live value, key := key } rfl rfl
  cases hv : (ht.items idx).value with
  | live w =>
    refine ⟨[w], by simp [put, hv, hclean], ?_⟩
    simpa [hv, Slot.held] using hsum.symm
  | empty =>
    refine ⟨[], by simp [put, hv], ?_⟩
    simpa [hv, Slot.held] using hsum.symm
  | deleted =>
    refine ⟨[], by simp [put, hv], ?_⟩
    simpa [hv, Slot.held] using hsum.symm

omit [DecidableEq V] in
theorem conserves_bury {v : V} (hclean : ht.cleanup = true) (hidx : idx < ht.size)
    (hv : (ht.items idx).value = .live v) : Conserves ht 0 (bury idx v ht) := by
  have hsum : contents (bury idx v ht) + _ = contents ht + _ :=
    contents_update hidx { value := .deleted, key := 0 } rfl rfl
  refine ⟨[v], by simp [bury, hclean], ?_⟩
  simpa [hv, Slot.held] using hsum.symm

theorem conserves_rehash (h : Counted ht) (hclean : ht.cleanup = true)
    (hrun : rehash key value ht (newArray ht ht) = some ht') : Conserves ht {value} ht' := by
  obtain ⟨hnew, hpow⟩ := counted_newArray ht h
  have hempty : contents (newArray ht ht) = 0 := by simp [contents, newArray, Slot.held]
  obtain ⟨ht₁, hcount, hkept, hmoved, huse, rfl⟩ := rehash_inv
    (fun i ht₁ => Conserves (newArray ht ht) (∑ j ∈ Finset.range i, (ht.items j).value.held) ht₁)
    hnew hpow (.refl _) (by
      intro i hi ht₁ ht₂ hcount hkept hp hround
      rw [Finset.sum_range_succ]
      cases hround with
      | free hfree =>
        cases hv : (ht.items i).value <;> simp_all [Slot.held, Slot.valid]
      | moved v hv huse =>
        rw [hv]
        exact hp.trans (conserves_put (hkept.cleanup.trans hclean)
          (findIndex_lt (hkept.size ▸ hpow)))) hrun
  have hpow₁ : PowSize ht₁.size := hkept.size ▸ hpow
  have hclean₁ : ht₁.cleanup = true := hkept.cleanup.trans hclean
  obtain ⟨gone, hcalls, hsum⟩ := hmoved
  have hold : Conserves ht 0 ht₁ := by
    refine ⟨gone, hcalls, ?_⟩
    rw [hempty, zero_add] at hsum
    rw [add_zero]
    exact hsum
  have hput : Conserves ht₁ {value} (put key value (findIndex ht₁ key) ht₁) :=
    conserves_put hclean₁ (findIndex_lt hpow₁)
  simpa using hold.trans hput

end Contents

section Calls

variable [DecidableEq V] {ht ht' : Table V} {calloc : Nat → Bool}

/-- The value that comes into the table with a call that adds one and succeeds. -/
def entering : Op V → Result V → Multiset V
  | .add _ value, .err .success => {value}
  | .locpAdd _ _ value, .err .success => {value}
  | _, _ => 0

omit [DecidableEq V] in
theorem entering_success {op : Op V} {key : Nat} {value : V} (h : op.Stores key value) :
    entering op (.err .success) = {value} := by
  rcases h with rfl | ⟨locp, rfl⟩ <;> rfl

omit [DecidableEq V] in
theorem entering_enomem (op : Op V) : entering op (.err .enomem) = 0 := by
  cases op <;> rfl

omit [DecidableEq V] in
theorem entering_other {op : Op V} (h : ∀ key value, ¬ op.Stores key value) (r : Result V) :
    entering op r = 0 := by
  cases op with
  | add key value => exact absurd (.inl rfl) (h key value)
  | locpAdd locp key value => exact absurd (.inr ⟨locp, rfl⟩) (h key value)
  | _ => rfl

theorem AddRun.conserves {op : Op V} {key : Nat} {value : V} {e : Errno} (h : Counted ht)
    (hclean : ht.cleanup = true) (hop : op.Stores key value)
    (hrun : AddRun calloc key value ht (some (ht', e))) :
    Conserves ht (entering op (.err e)) ht' := by
  generalize hres : some (ht', e) = res at hrun
  cases hrun with
  | inUse hsize _ =>
    cases hres
    rw [entering_success hop]
    exact conserves_put hclean (findIndex_lt (h.pow hsize))
  | noMemory _ _ =>
    cases hres
    rw [entering_enomem]
    exact .refl ht
  | reorganized _ _ =>
    obtain ⟨ht₁, hrehash, he⟩ := map_eq_some_iff.mp hres.symm
    cases he
    rw [entering_success hop]
    exact conserves_rehash h hclean hrehash

theorem CallRound.conserves {op : Op V} {p : Table V × Result V} (h : Counted ht)
    (hclean : ht.cleanup = true) (hop : ¬ op.Overrides ht)
    (hround : CallRound calloc ht op p) : Conserves ht (entering op p.2) p.1 := by
  cases hround with
  | added hstores hadd => exact hadd.conserves h hclean hstores
  | filled hstores hlt _ =>
    rw [entering_success hstores]
    exact conserves_put hclean hlt
  | overridden hover _ _ _ => exact absurd hover hop
  | removed hno hlt hv =>
    rw [entering_other hno]
    exact conserves_bury hclean hlt hv
  | same hno =>
    rw [entering_other hno]
    exact .refl ht
  | setMaxLoad maxLoad hset =>
    subst hset
    exact .refl ht

theorem AddRun.cleanup {key : Nat} {value : V} {e : Errno} (h : Counted ht)
    (hrun : AddRun calloc key value ht (some (ht', e))) : ht'.cleanup = ht.cleanup := by
  generalize hres : some (ht', e) = res at hrun
  cases hrun with
  | inUse _ _ =>
    cases hres
    rfl
  | noMemory _ _ =>
    cases hres
    rfl
  | reorganized _ _ =>
    obtain ⟨ht₁, hrehash, he⟩ := map_eq_some_iff.mp hres.symm
    cases he
    obtain ⟨hnew, hpow⟩ := counted_newArray ht h
    obtain ⟨ht₂, -, hkept, -, -, rfl⟩ :=
      rehash_inv (fun _ _ => True) hnew hpow trivial (fun _ _ _ _ _ _ _ _ => trivial) hrehash
    exact hkept.cleanup

theorem CallRound.cleanup {op : Op V} {p : Table V × Result V} (h : Counted ht)
    (hround : CallRound calloc ht op p) : p.1.cleanup = ht.cleanup := by
  cases hround with
  | added _ hadd => exact hadd.cleanup h
  | _ => rfl

end Calls

section Account

variable [DecidableEq V] {ht : Table V} {entered : Multiset V}

/-- A call, with the values that have entered the table so far. -/
def tallyStep (s : Table V × Multiset V) (c : (Nat → Bool) × Op V) : Option (Table V × Multiset V) :=
  (callRun c.1 s.1 c.2).map fun p => (p.1, s.2 + entering c.2 p.2)

/-- Every call of the cleanup function was for a value, and the calls with a value and the slots
that hold it are together as many as the times it has entered: a value that has left was cleaned
up once, and one that is still there was not. -/
structure Accounted (calls : List (CleanupArg V)) (inside entered : Multiset V) : Prop where
  args : ∀ a ∈ calls, ∃ v, a = .value v
  balance : ∀ v, calls.count (.value v) + inside.count v = entered.count v

/-- The account of a table, and its account after it has been destroyed. -/
def Disciplined (ht : Table V) (entered : Multiset V) : Prop :=
  Accounted ht.cleaned (contents ht) entered ∧ Accounted (hurdIhashDestroy ht) 0 entered

theorem accounted_map (gone : List V) (inside : Multiset V) :
    Accounted (gone.map .value) inside (inside + gone) := by
  constructor
  · intro a ha
    obtain ⟨v, -, rfl⟩ := mem_map.mp ha
    exact ⟨v, rfl⟩
  · intro v
    have hinj : Function.Injective (CleanupArg.value : V → CleanupArg V) := by
      intro a b hab
      exact CleanupArg.value.inj hab
    rw [count_map_of_injective _ _ hinj, Multiset.count_add, Multiset.coe_count, add_comm]

theorem Conserves.disciplined {init : Table V} (h : Conserves init entered ht)
    (hclean : ht.cleanup = true) (hcalls : init.cleaned = []) (hempty : contents init = 0) :
    Disciplined ht entered := by
  obtain ⟨gone, hgone, hsum⟩ := h
  rw [hcalls, nil_append] at hgone
  rw [hempty, zero_add] at hsum
  constructor
  · rw [hgone, hsum]
    exact accounted_map gone (contents ht)
  · have hall : entered = 0 + ((gone ++ iterate ht : List V) : Multiset V) := by
      rw [zero_add, ← Multiset.coe_add, coe_iterate, hsum, add_comm]
    rw [hurdIhashDestroy, if_pos hclean, hgone, ← map_append, hall]
    exact accounted_map _ 0

/-- In every run in which no item is overridden in place, whichever allocations fail, each value
that leaves a table with a cleanup function is cleaned up once, and no other. -/
theorem cleanup_discipline (hasLocp : Bool) (fctHash : Option (Nat → Nat))
    (fctCmp : Option (Nat → Nat → Bool))
    (h : Reach tallyStep (fun s c => ¬ c.2.Overrides s.1)
      (freshTable hasLocp true fctHash fctCmp, 0) (ht, entered)) : Disciplined ht entered := by
  let init : Table V := freshTable hasLocp true fctHash fctCmp
  have hall : Counted ht ∧ ht.cleanup = true ∧ Conserves init entered ht := by
    refine h.invariant (fun s => Counted s.1 ∧ s.1.cleanup = true ∧ Conserves init s.2 s.1)
      ⟨counted_freshTable _ _ _ _, rfl, .refl _⟩ ?_
    intro s c s' ⟨hcount, hclean, hcons⟩ hno hstep
    obtain ⟨p, hrun, rfl⟩ := map_eq_some_iff.mp hstep
    have hround := callRun_round hcount hrun
    exact ⟨hround.counted hcount, (hround.cleanup hcount).trans hclean,
      hcons.trans (hround.conserves hcount hclean hno)⟩
  exact hall.2.2.disciplined hall.2.1 rfl (by simp [contents, init, freshTable, hurdIhashSetCleanup,
    hurdIhashInit])

/-- A table that has an item under the key 1. -/
def single : Option (Table Nat × Multiset Nat) :=
  tallyStep (freshTable false true none none, 0) (fun _ => true, .add 1 10)

theorem cleanup_discipline_single :
    ∃ s₁ s, single = some s₁ ∧ tallyStep s₁ (fun _ => false, .remove 1) = some s ∧
      Disciplined s.1 s.2 := by
  obtain ⟨s₁, hfirst⟩ : ∃ s₁, single = some s₁ := isSome_iff_exists.mp (by decide)
  have hcount : Counted s₁.1 := by
    rw [single, tallyStep] at hfirst
    obtain ⟨p, hrun, rfl⟩ := map_eq_some_iff.mp hfirst
    exact (callRun_round (counted_freshTable _ _ _ _) hrun).counted (counted_freshTable _ _ _ _)
  obtain ⟨ht, b, hrem, -⟩ := hurdIhashRemove_counted 1 hcount
  have hsecond : tallyStep s₁ (fun _ => false, .remove 1) = some (ht, s₁.2 + 0) := by
    simp only [tallyStep, callRun, opRun, hrem]
    rfl
  refine ⟨s₁, _, hfirst, hsecond, cleanup_discipline false none none ?_⟩
  exact .step _ (.step _ .start (by simp [Op.Overrides]) hfirst) (by simp [Op.Overrides]) hsecond

/-- Overriding an item in the slot where it was found calls the cleanup function with the address of
the slot. -/
theorem override_cleans_slot :
    ∃ (ht : Table Nat) (entered : Multiset Nat),
      Reach tallyStep (fun s c => CallOk s.1 c.2) (freshTable false true none none, 0) (ht, entered) ∧
        ¬ Disciplined ht entered := by
  have hall : (single.bind fun s₁ => (tallyStep s₁
      (fun _ => true, .locpAdd (some ⟨1, 1⟩) 1 20)).map fun s => (s₁, s)).any
        (fun t => decide ((hurdIhashLocpFind 1 t.1.1).2 = some ⟨1, 1⟩ ∧
          t.2.1.cleaned = [.locp ⟨1, 1⟩])) = true := by
    decide
  obtain ⟨⟨s₁, s⟩, hruns, hfacts⟩ := (any_eq_true _ _).mp hall
  obtain ⟨hslot, hcleaned⟩ := of_decide_eq_true hfacts
  obtain ⟨s₁', hfirst, hpair⟩ := bind_eq_some_iff.mp hruns
  obtain ⟨s', hsecond, heq⟩ := map_eq_some_iff.mp hpair
  cases heq
  have hfound : CallOk s₁.1 (.locpAdd (some ⟨1, 1⟩) 1 20) := .inr ⟨1, hslot.symm⟩
  have hreach : Reach tallyStep (fun s c => CallOk s.1 c.2) (freshTable false true none none, 0) s :=
    .step (fun _ => true, .locpAdd (some ⟨1, 1⟩) 1 20)
      (.step (fun _ => true, .add 1 10) .start trivial hfirst) hfound hsecond
  refine ⟨s.1, s.2, hreach, ?_⟩
  intro hdisc
  have hin : CleanupArg.locp ⟨1, 1⟩ ∈ s.1.cleaned := hcleaned ▸ mem_singleton_self _
  obtain ⟨v, hv⟩ := hdisc.1.args _ hin
  cases hv

end Account

end Hurd.Ihash
