import Hurd.Libbpf.Safety

/-!
# The filters of an interface

`net_set_filter` and `remove_dead_filter` of `libbpf/bpf_impl.c`, over the two lists of filters of
an interface. A filter without a match instruction is a structure of its own; the filters that
differ in the keys of their match instruction only share a header of `filter_hash_header`, on whose
hash table there is an entry for each of them.

New filters are put at the end of the lists, whatever place the loop in front of this has found.
-/

namespace Hurd.Bpf

open List Function

def netfIn : BitVec 16 := 0x1

def netfOut : BitVec 16 := 0x2

def netfTypeMask : BitVec 16 := 0xfc00

def netfBpf : BitVec 16 := 0x400

def nNetHash : Nat := 4

/-- `filter[0]`, which is the code of the first instruction. -/
def Filter.header (f : Filter) : BitVec 16 := (f.insn 0).code

def Filter.isIn (f : Filter) : Bool := f.header &&& netfIn ≠ 0

def Filter.isOut (f : Filter) : Bool := f.header &&& netfOut ≠ 0

/-- `BPF_INSN_EQ`, or two key instructions. -/
def insnEq (p q : BpfInsn) : Bool :=
  p = q || (p.code = bpfMisc ||| bpfKey && q.code = bpfMisc ||| bpfKey)

/-- `bpf_eq (f1, f2, bytes)` -/
def bpfEq (f g : Filter) : Bool :=
  (List.range g.len).all fun (i : Nat) => insnEq (f.insn i) (g.insn i)

/-- A pointer to a filter: to a structure that has been allocated, or into `filter_hash_header`. -/
inductive Infp where
  | rcv (n : Nat)
  | hash (i : Fin nNetHash)
deriving DecidableEq

/-- What such a pointer points to. The reference count is that of a header. -/
structure QueuedFilter extends NetRcvPort where
  priority : Int
  filter : Filter
  refCount : Int

def QueuedFilter.zero : QueuedFilter where
  rcvPort := machPortNull
  nKeys := 0
  table := fun _ => []
  priority := 0
  filter := ⟨fun _ => ⟨0, 0, 0, 0⟩, 0, by decide⟩
  refCount := 0

/-- The lists of an interface, the filters, and how many have been allocated. -/
structure FilterQueues where
  rcvList : List Infp
  sndList : List Infp
  infp : Infp → QueuedFilter
  allocated : Nat

namespace FilterQueues

variable (s : FilterQueues)

def set (r : Infp) (x : QueuedFilter) : FilterQueues :=
  { s with infp := update s.infp r x }

def remove (r : Infp) : FilterQueues :=
  { s with
    rcvList := if (s.infp r).filter.isIn then s.rcvList.erase r else s.rcvList
    sndList := if (s.infp r).filter.isOut then s.sndList.erase r else s.sndList }

/-- `hash_ent_remove`, for entry number `k` of the chain at `head`. -/
def hashEntRemove (r : Infp) (used : Bool) (head k : Nat) : FilterQueues × Bool :=
  let hp := s.infp r
  let chain := hp.table head
  let hp := { hp with
    refCount := hp.refCount - 1
    table := update hp.table head (chain.eraseIdx k) }
  let s := s.set r hp
  if k = 0 ∧ chain.length = 1 ∧ hp.refCount = 0 ∧ !used then
    ((s.remove r).set r { hp with nKeys := 0 }, true)
  else (s, false)

end FilterQueues

/-- The `do` loop over the chain at `head`, from its entry number `k` on. It ends when it comes
round to the head of the chain, which has become the next entry when the head has been removed. -/
def chainLoop (port : Nat) (r : Infp) (used : Bool) (head : Nat) :
    Nat → Nat → FilterQueues → FilterQueues × Bool
  | 0, _, s => (s, false)
  | fuel + 1, k, s =>
      match ((s.infp r).table head)[k]? with
      | none => (s, false)
      | some entp =>
          if entp.rcvPort = port then
            let x := s.hashEntRemove r used head k
            if x.2 ∨ k = 0 then x else chainLoop port r used head fuel k x.1
          else chainLoop port r used head fuel (k + 1) s

/-- The loop over the hash table, which is left when the header has been freed. -/
def tableLoop (port : Nat) (r : Infp) (used : Bool) : List Nat → FilterQueues → FilterQueues
  | [], s => s
  | head :: heads, s =>
      let x := chainLoop port r used head ((s.infp r).table head).length 0 s
      if x.2 then x.1 else tableLoop port r used heads x.1

/-- The arguments of `net_set_filter`, and which headers of `filter_hash_header` are in use by the
other interfaces. The caller has asked for a notification from the port, and the filter is an array
of `NET_MAX_FILTER` words at most. -/
structure SetFilter where
  rcvPort : Nat
  rcvPort_ne : rcvPort ≠ machPortNull
  priority : Int
  filter : Filter
  even : filter.bytes % 2 = 0
  bytes_le : filter.bytes ≤ 256
  taken : Fin nNetHash → Bool

inductive IoReturn where
  | success | invalidOperation | noMemory
deriving DecidableEq

namespace SetFilter

variable (c : SetFilter)

/-- The body of `check_filter_list`, with `my_infp` and the lists. -/
def checkFilter (isMatch : Bool) (x : Option Infp × FilterQueues) (r : Infp) :
    Option Infp × FilterQueues :=
  let infp := x.2.infp r
  if infp.rcvPort = machPortNull then
    let my :=
      if isMatch ∧ infp.priority = c.priority ∧ x.1 = none ∧
          infp.filter.bytes = c.filter.bytes ∧ bpfEq infp.filter c.filter then some r
      else x.1
    (my, tableLoop c.rcvPort r (my = some r) (List.range netHashSize) x.2)
  else if infp.rcvPort = c.rcvPort then (x.1, x.2.remove r)
  else x

/-- `my_infp` and the lists in front of the calls of `check_filter_list`, for a filter with a match
instruction at `found`. Without one, `my_infp` is allocated. -/
def allocate (found : Option Nat) (s : FilterQueues) : Option Infp × FilterQueues :=
  match found with
  | none =>
      (some (.rcv s.allocated),
        { s.set (.rcv s.allocated) { QueuedFilter.zero with rcvPort := c.rcvPort } with
          allocated := s.allocated + 1 })
  | some _ => (none, s)

/-- Behind the call for the list of input filters. -/
def checkedRcv (found : Option Nat) (s : FilterQueues) : Option Infp × FilterQueues :=
  let x := c.allocate found s
  if c.filter.isIn then x.2.rcvList.foldl (c.checkFilter found.isSome) x else x

/-- Behind both calls. -/
def checked (found : Option Nat) (s : FilterQueues) : Option Infp × FilterQueues :=
  let x := c.checkedRcv found s
  if c.filter.isOut then x.2.sndList.foldl (c.checkFilter found.isSome) x else x

/-- Take a free header. -/
def dummy (found : Nat) (s : FilterQueues) : Option (Infp × FilterQueues) :=
  ((List.finRange nNetHash).find? fun i => (s.infp (.hash i)).nKeys = 0 && !c.taken i).map fun i =>
    (.hash i, s.set (.hash i) { s.infp (.hash i) with
      nKeys := (c.filter.insn found).jt.toNat
      refCount := 0
      table := fun _ => []
      rcvPort := machPortNull })

/-- `queue_enter` behind the loop for the place of the new filter, in a list that its flag names.
The loop leaves nothing behind: the filter comes to the end of the list. -/
def queueEnter (flag : Bool) (l : List Infp) (r : Infp) : List Infp :=
  if flag then l ++ [r] else l

/-- Insert `my_infp`. -/
def insert (r : Infp) (s : FilterQueues) : FilterQueues :=
  let s := s.set r { s.infp r with priority := c.priority, filter := c.filter }
  { s with
    rcvList := queueEnter c.filter.isIn s.rcvList r
    sndList := queueEnter c.filter.isOut s.sndList r }

/-- Insert to hash list. -/
def addHashEntry (found : Nat) (r : Infp) (s : FilterQueues) : FilterQueues :=
  let nKeys := (c.filter.insn found).jt.toNat
  let keys : Nat → Word := fun i => if i < nKeys then (c.filter.insn (found + i + 1 : Nat)).k else 0
  let head := bpfHash nKeys fun i => keys i.toNat
  let hp := s.infp r
  s.set r { hp with
    table := update hp.table head (hp.table head ++ [⟨c.rcvPort, keys⟩])
    refCount := hp.refCount + 1 }

/-- The check of the filter syntax: whether it is accepted, and where its match instruction is. -/
def syntaxCheck : Option (Option Nat) :=
  if c.filter.bytes / 2 = 0 then none
  else if ¬(c.filter.isIn || c.filter.isOut) then none
  else if c.filter.header &&& netfTypeMask = netfBpf then
    let x := bpfValidate c.filter none
    if x.1 = 0 then none else some x.2
  else none

end SetFilter

def netSetFilter (c : SetFilter) (s : FilterQueues) : IoReturn × FilterQueues :=
  match c.syntaxCheck with
  | none => (.invalidOperation, s)
  | some none => (.success, c.insert (.rcv s.allocated) (c.checked none s).2)
  | some (some found) =>
      let x := c.checked (some found) s
      match x.1 with
      | some r => (.success, c.addHashEntry found r x.2)
      | none =>
          match c.dummy found x.2 with
          | none => (.noMemory, x.2)
          | some (r, s) => (.success, c.addHashEntry found r (c.insert r s))

/-- The body of the loop of `remove_dead_filter`. -/
def checkDead (port : Nat) (s : FilterQueues) (r : Infp) : FilterQueues :=
  if (s.infp r).rcvPort = machPortNull then tableLoop port r false (List.range netHashSize) s
  else if (s.infp r).rcvPort = port then s.remove r
  else s

/-- `remove_dead_filter`, for the list of input or of output filters. -/
def removeDeadFilter (out : Bool) (port : Nat) (s : FilterQueues) : FilterQueues :=
  (if out then s.sndList else s.rcvList).foldl (checkDead port) s

namespace FilterQueues

/-- `r` is on a list. -/
def Listed (s : FilterQueues) (r : Infp) : Prop := r ∈ s.rcvList ∨ r ∈ s.sndList

/-- A structure that has been allocated, or a header in use. -/
def Live (s : FilterQueues) : Infp → Prop
  | .rcv n => n < s.allocated
  | .hash i => (s.infp (.hash i)).nKeys ≠ 0

/-- A filter is on a list once, and on those only that its header names. -/
structure Linked (s : FilterQueues) : Prop where
  rcv_nodup : s.rcvList.Nodup
  snd_nodup : s.sndList.Nodup
  isIn : ∀ r ∈ s.rcvList, (s.infp r).filter.isIn = true
  isOut : ∀ r ∈ s.sndList, (s.infp r).filter.isOut = true
  live : ∀ r, s.Listed r → s.Live r

theorem Live.mono {s t : FilterQueues} {r : Infp} (h : s.Live r) (ha : s.allocated ≤ t.allocated)
    (hk : (t.infp r).nKeys = (s.infp r).nKeys) : t.Live r := by
  cases r with
  | rcv n => exact Nat.lt_of_lt_of_le h ha
  | hash i => simpa [Live, hk] using h

@[simp] theorem set_infp_self (s : FilterQueues) (r : Infp) (x : QueuedFilter) :
    (s.set r x).infp r = x := by
  simp [set]

theorem set_infp_of_ne (s : FilterQueues) {r r' : Infp} (x : QueuedFilter) (h : r' ≠ r) :
    (s.set r x).infp r' = s.infp r' := by
  simp [set, h]

theorem remove_rcvList_sublist (s : FilterQueues) (r : Infp) :
    (s.remove r).rcvList.Sublist s.rcvList := by
  simp only [remove]
  split_ifs
  · exact erase_sublist
  · exact List.Sublist.refl _

theorem remove_sndList_sublist (s : FilterQueues) (r : Infp) :
    (s.remove r).sndList.Sublist s.sndList := by
  simp only [remove]
  split_ifs
  · exact erase_sublist
  · exact List.Sublist.refl _

theorem Linked.not_listed_remove {s : FilterQueues} (h : s.Linked) (r : Infp) :
    ¬(s.remove r).Listed r := by
  simp only [Listed, remove, not_or]
  constructor
  · split_ifs with hin
    · exact h.rcv_nodup.not_mem_erase
    · exact fun hr => hin (h.isIn r hr)
  · split_ifs with hout
    · exact h.snd_nodup.not_mem_erase
    · exact fun hr => hout (h.isOut r hr)

/-- `s` is `s₀` less some filters: none has come to a list, and those on the lists have kept their
priorities. -/
structure Prunes (s₀ s : FilterQueues) : Prop where
  linked : s.Linked
  rcv : s.rcvList.Sublist s₀.rcvList
  snd : s.sndList.Sublist s₀.sndList
  allocated : s₀.allocated ≤ s.allocated
  priority : ∀ r, s.Listed r → (s.infp r).priority = (s₀.infp r).priority

theorem Linked.prunes {s : FilterQueues} (h : s.Linked) : Prunes s s where
  linked := h
  rcv := List.Sublist.refl _
  snd := List.Sublist.refl _
  allocated := Nat.le_refl _
  priority _ _ := rfl

theorem Prunes.trans {s₀ s t : FilterQueues} (h : Prunes s₀ s) (h' : Prunes s t) :
    Prunes s₀ t where
  linked := h'.linked
  rcv := h'.rcv.trans h.rcv
  snd := h'.snd.trans h.snd
  allocated := Nat.le_trans h.allocated h'.allocated
  priority r hr := by
    rw [h'.priority r hr, h.priority r (hr.imp (h'.rcv.subset ·) (h'.snd.subset ·))]

section Prunes

variable {s₀ s : FilterQueues}

theorem Prunes.set (h : Prunes s₀ s) (r : Infp) (x : QueuedFilter)
    (hx : s.Listed r → x.priority = (s.infp r).priority ∧ x.filter = (s.infp r).filter ∧
      x.nKeys = (s.infp r).nKeys) : Prunes s₀ (s.set r x) := by
  have hsame : ∀ r', s.Listed r' → ((s.set r x).infp r').priority = (s.infp r').priority ∧
      ((s.set r x).infp r').filter = (s.infp r').filter ∧
      ((s.set r x).infp r').nKeys = (s.infp r').nKeys := by
    intro r' hr'
    by_cases he : r' = r
    · subst he
      simpa using hx hr'
    · simp [set_infp_of_ne s x he]
  constructor
  · constructor
    · exact h.linked.rcv_nodup
    · exact h.linked.snd_nodup
    · intro r' hr'
      rw [(hsame r' (.inl hr')).2.1]
      exact h.linked.isIn r' hr'
    · intro r' hr'
      rw [(hsame r' (.inr hr')).2.1]
      exact h.linked.isOut r' hr'
    · intro r' hr'
      exact (h.linked.live r' hr').mono (Nat.le_refl _) (hsame r' hr').2.2
  · exact h.rcv
  · exact h.snd
  · exact h.allocated
  · intro r' hr'
    rw [(hsame r' hr').1, h.priority r' hr']

theorem Prunes.remove (h : Prunes s₀ s) (r : Infp) : Prunes s₀ (s.remove r) := by
  have hrcv := remove_rcvList_sublist s r
  have hsnd := remove_sndList_sublist s r
  have hlisted : ∀ r', (s.remove r).Listed r' → s.Listed r' := by
    intro r' hr'
    exact hr'.imp (hrcv.subset ·) (hsnd.subset ·)
  constructor
  · constructor
    · exact h.linked.rcv_nodup.sublist hrcv
    · exact h.linked.snd_nodup.sublist hsnd
    · exact fun r' hr' => h.linked.isIn r' (hrcv.subset hr')
    · exact fun r' hr' => h.linked.isOut r' (hsnd.subset hr')
    · intro r' hr'
      exact (h.linked.live r' (hlisted r' hr')).mono (Nat.le_refl _) rfl
  · exact hrcv.trans h.rcv
  · exact hsnd.trans h.snd
  · exact h.allocated
  · exact fun r' hr' => h.priority r' (hlisted r' hr')

theorem Prunes.hashEntRemove (h : Prunes s₀ s) (r : Infp) (used : Bool) (head k : Nat) :
    Prunes s₀ (s.hashEntRemove r used head k).1 := by
  simp only [FilterQueues.hashEntRemove]
  split_ifs with hfree
  · -- the header has no keys any more, but it is on no list either
    apply Prunes.set
    · apply Prunes.remove
      exact h.set r _ fun _ => ⟨rfl, rfl, rfl⟩
    · intro hr
      have hset := h.set r { s.infp r with
        refCount := (s.infp r).refCount - 1
        table := update (s.infp r).table head (((s.infp r).table head).eraseIdx k) }
        fun _ => ⟨rfl, rfl, rfl⟩
      exact absurd hr (hset.linked.not_listed_remove r)
  · exact h.set r _ fun _ => ⟨rfl, rfl, rfl⟩

end Prunes

end FilterQueues

open FilterQueues

section Prunes

variable {s₀ s : FilterQueues}

theorem FilterQueues.Prunes.chainLoop (h : Prunes s₀ s) (port : Nat) (r : Infp) (used : Bool)
    (head fuel k : Nat) : Prunes s₀ (chainLoop port r used head fuel k s).1 := by
  induction fuel generalizing k s with
  | zero => exact h
  | succ fuel ih =>
    rw [Bpf.chainLoop]
    split
    · exact h
    · dsimp only
      split_ifs
      · exact h.hashEntRemove r used head k
      · exact ih (h.hashEntRemove r used head k) k
      · exact ih h (k + 1)

theorem FilterQueues.Prunes.tableLoop (h : Prunes s₀ s) (port : Nat) (r : Infp) (used : Bool)
    (heads : List Nat) : Prunes s₀ (tableLoop port r used heads s) := by
  induction heads generalizing s with
  | nil => exact h
  | cons head heads ih =>
    rw [Bpf.tableLoop]
    split_ifs
    · exact h.chainLoop port r used head _ 0
    · exact ih (h.chainLoop port r used head _ 0)

theorem FilterQueues.Prunes.checkDead (h : Prunes s₀ s) (port : Nat) (r : Infp) :
    Prunes s₀ (checkDead port s r) := by
  unfold Bpf.checkDead
  split_ifs
  · exact h.tableLoop port r false _
  · exact h.remove r
  · exact h

theorem FilterQueues.Prunes.checkFilter {x : Option Infp × FilterQueues} (h : Prunes s₀ x.2)
    (c : SetFilter) (isMatch : Bool) (r : Infp) : Prunes s₀ (c.checkFilter isMatch x r).2 := by
  simp only [SetFilter.checkFilter]
  split_ifs
  · exact h.tableLoop c.rcvPort r _ _
  · exact h.tableLoop c.rcvPort r _ _
  · exact h.remove r
  · exact h

end Prunes

theorem prunes_removeDeadFilter {s : FilterQueues} (h : s.Linked) (out : Bool) (port : Nat) :
    Prunes s (removeDeadFilter out port s) := by
  apply List.foldlRecOn _ (checkDead port) h.prunes
  intro t ht r _
  exact ht.checkDead port r

theorem bpfValidate_jt {f : Filter} {p : Nat} (h : (bpfValidate f none).2 = some p) :
    (f.insn p).jt ≠ 0 := by
  have hsnd : (bpfValidate f none).2 = (validateFrom f f.len 1 none).2 := by
    unfold bpfValidate
    split
    · rename_i hloop
      rw [hloop]
    · rename_i hloop
      rw [hloop]
      split_ifs
      · rfl
      · rfl
      · rfl
  have hloop : validateFrom f f.len 1 none = ((validateFrom f f.len 1 none).1, some p) :=
    Prod.ext rfl (hsnd.symm.trans h)
  exact validateFrom_jt hloop (by simp)

namespace SetFilter

variable {c : SetFilter} {s : FilterQueues}

theorem jt_of_syntaxCheck {found : Nat} (h : c.syntaxCheck = some (some found)) :
    (c.filter.insn found).jt.toNat ≠ 0 := by
  simp only [syntaxCheck] at h
  split_ifs at h
  have hjt := bpfValidate_jt (Option.some.inj h)
  exact fun hz => hjt (BitVec.eq_of_toNat_eq hz)

theorem prunes_allocate (h : s.Linked) (c : SetFilter) (found : Option Nat) :
    Prunes s (c.allocate found s).2 := by
  cases found with
  | some _ => exact h.prunes
  | none =>
    simp only [allocate]
    have hset : Prunes s (s.set (.rcv s.allocated)
        { QueuedFilter.zero with rcvPort := c.rcvPort }) :=
      h.prunes.set _ _ fun hr => absurd (h.live _ hr) (Nat.lt_irrefl _)
    constructor
    · constructor
      · exact hset.linked.rcv_nodup
      · exact hset.linked.snd_nodup
      · exact hset.linked.isIn
      · exact hset.linked.isOut
      · intro r hr
        exact (hset.linked.live r hr).mono (Nat.le_succ _) rfl
    · exact hset.rcv
    · exact hset.snd
    · exact Nat.le_succ _
    · exact hset.priority

theorem prunes_checked (h : s.Linked) (c : SetFilter) (found : Option Nat) :
    Prunes (c.allocate found s).2 (c.checked found s).2 := by
  have hfold : ∀ (l : List Infp) (x : Option Infp × FilterQueues),
      Prunes (c.allocate found s).2 x.2 →
      Prunes (c.allocate found s).2 (l.foldl (c.checkFilter found.isSome) x).2 := by
    intro l
    induction l with
    | nil => exact fun x hx => hx
    | cons r l ih => exact fun x hx => ih _ (hx.checkFilter c _ r)
  have hinit := (prunes_allocate h c found).linked.prunes
  have hrcv : Prunes (c.allocate found s).2 (c.checkedRcv found s).2 := by
    unfold checkedRcv
    split_ifs
    · exact hfold _ _ hinit
    · exact hinit
  unfold checked
  split_ifs
  · exact hfold _ _ hrcv
  · exact hrcv

/-- The structure in which a filter enters the lists, and the lists at that time, if it does. -/
def placed (c : SetFilter) (s : FilterQueues) : Option (Infp × FilterQueues) :=
  match c.syntaxCheck with
  | none => none
  | some none => some (.rcv s.allocated, (c.checked none s).2)
  | some (some found) =>
      let x := c.checked (some found) s
      match x.1 with
      | some _ => none
      | none => c.dummy found x.2

theorem dummy_spec {found : Nat} {t : FilterQueues} {r : Infp} (h : Prunes s t)
    (hjt : (c.filter.insn found).jt.toNat ≠ 0) {u : FilterQueues}
    (hd : c.dummy found t = some (r, u)) : Prunes s u ∧ ¬u.Listed r ∧ u.Live r := by
  obtain ⟨i, hfind, heq⟩ := Option.map_eq_some_iff.mp hd
  have hfree := List.find?_some hfind
  simp only [Bool.and_eq_true, decide_eq_true_eq] at hfree
  have hnot : ¬t.Listed (.hash i) := fun hr => h.linked.live _ hr hfree.1
  cases heq
  refine ⟨h.set _ _ fun hr => absurd hr hnot, hnot, ?_⟩
  simpa [Live] using hjt

theorem placed_spec (h : s.Linked) {r : Infp} {t : FilterQueues} (hp : c.placed s = some (r, t)) :
    Prunes s t ∧ ¬t.Listed r ∧ t.Live r := by
  unfold placed at hp
  split at hp
  · cases hp
  · cases hp
    have halloc := prunes_allocate h c none
    have hchecked := prunes_checked h c none
    refine ⟨halloc.trans hchecked, ?_, hchecked.allocated⟩
    intro hr
    exact Nat.lt_irrefl _ (h.live _ (hr.imp ((hchecked.rcv.trans halloc.rcv).subset ·)
      ((hchecked.snd.trans halloc.snd).subset ·)))
  · rename_i found hsyntax
    dsimp only at hp
    split at hp
    · cases hp
    · exact dummy_spec ((prunes_allocate h c _).trans (prunes_checked h c _))
        (jt_of_syntaxCheck hsyntax) hp

theorem netSetFilter_none (h : s.Linked) (hp : c.placed s = none) :
    Prunes s (netSetFilter c s).2 := by
  unfold placed at hp
  unfold netSetFilter
  split at hp
  · exact h.prunes
  · cases hp
  · rename_i found hsyntax
    have hchecked := (prunes_allocate h c (some found)).trans (prunes_checked h c (some found))
    dsimp only at hp ⊢
    split at hp
    · exact hchecked.set _ _ fun _ => ⟨rfl, rfl, rfl⟩
    · simp only [hp]
      exact hchecked

theorem netSetFilter_some {r : Infp} {t : FilterQueues} (hp : c.placed s = some (r, t)) :
    (netSetFilter c s).2 = c.insert r t ∨
      ∃ found, (netSetFilter c s).2 = c.addHashEntry found r (c.insert r t) := by
  unfold placed at hp
  unfold netSetFilter
  split at hp
  · cases hp
  · cases hp
    exact .inl rfl
  · rename_i found hsyntax
    dsimp only at hp ⊢
    split at hp
    · cases hp
    · simp only [hp]
      exact .inr ⟨found, rfl⟩

theorem mem_queueEnter {flag : Bool} {l : List Infp} {r r' : Infp} :
    r' ∈ queueEnter flag l r ↔ r' ∈ l ∨ flag = true ∧ r' = r := by
  unfold queueEnter
  split_ifs with hflag
  · simp [hflag]
  · simp [hflag]

theorem queueEnter_nodup {flag : Bool} {l : List Infp} {r : Infp} (hl : l.Nodup) (hr : r ∉ l) :
    (queueEnter flag l r).Nodup := by
  unfold queueEnter
  split_ifs
  · refine nodup_append.mpr ⟨hl, by simp, ?_⟩
    intro r' hr' q hq he
    exact hr (mem_singleton.mp hq ▸ he ▸ hr')
  · exact hl

theorem insert_infp_of_mem {r r' : Infp} {l : List Infp} (hr : r ∉ l) (hr' : r' ∈ l) :
    (c.insert r s).infp r' = s.infp r' :=
  set_infp_of_ne s _ fun he => hr (he ▸ hr')

theorem insert_infp_self (r : Infp) : (c.insert r s).infp r =
    { s.infp r with priority := c.priority, filter := c.filter } :=
  set_infp_self s r _

theorem insert_linked {r : Infp} (h : s.Linked) (hr : ¬s.Listed r) (hlive : s.Live r) :
    (c.insert r s).Linked := by
  simp only [Listed, not_or] at hr
  constructor
  · exact queueEnter_nodup h.rcv_nodup hr.1
  · exact queueEnter_nodup h.snd_nodup hr.2
  · intro r' hr'
    rcases mem_queueEnter.mp hr' with hold | hnew
    · rw [insert_infp_of_mem hr.1 hold]
      exact h.isIn r' hold
    · rw [hnew.2, insert_infp_self]
      exact hnew.1
  · intro r' hr'
    rcases mem_queueEnter.mp hr' with hold | hnew
    · rw [insert_infp_of_mem hr.2 hold]
      exact h.isOut r' hold
    · rw [hnew.2, insert_infp_self]
      exact hnew.1
  · intro r' hr'
    have hlive' : s.Live r' := by
      rcases hr' with hr' | hr'
      · rcases mem_queueEnter.mp hr' with hold | hnew
        · exact h.live r' (.inl hold)
        · exact hnew.2 ▸ hlive
      · rcases mem_queueEnter.mp hr' with hold | hnew
        · exact h.live r' (.inr hold)
        · exact hnew.2 ▸ hlive
    have hkeys : ((c.insert r s).infp r').nKeys = (s.infp r').nKeys := by
      by_cases he : r' = r
      · rw [he, insert_infp_self]
      · simp [insert, set_infp_of_ne s _ he]
    exact hlive'.mono (Nat.le_refl _) hkeys

end SetFilter

/-- Filters of higher priority stand first. -/
def OrderedList (priority : Infp → Int) (l : List Infp) : Prop :=
  l.Pairwise fun r r' => priority r' ≤ priority r

theorem OrderedList.congr {p q : Infp → Int} {l : List Infp} (h : ∀ r ∈ l, p r = q r)
    (hl : OrderedList p l) : OrderedList q l := by
  apply List.Pairwise.imp_of_mem _ hl
  intro r r' hr hr' hle
  rwa [← h r hr, ← h r' hr']

/-- Both lists are ordered by priority. -/
def FilterQueues.Ordered (s : FilterQueues) : Prop :=
  OrderedList (fun r => (s.infp r).priority) s.rcvList ∧
    OrderedList (fun r => (s.infp r).priority) s.sndList

theorem FilterQueues.Prunes.ordered {s₀ s : FilterQueues} (h : Prunes s₀ s) (h₀ : s₀.Ordered) :
    s.Ordered := by
  constructor
  · apply OrderedList.congr _ (h₀.1.sublist h.rcv)
    exact fun r hr => (h.priority r (.inl hr)).symm
  · apply OrderedList.congr _ (h₀.2.sublist h.snd)
    exact fun r hr => (h.priority r (.inr hr)).symm

namespace SetFilter

variable {c : SetFilter} {s : FilterQueues}

theorem orderedList_queueEnter {flag : Bool} {p : Infp → Int} {l : List Infp} {r : Infp}
    (hl : OrderedList p l) :
    OrderedList p (queueEnter flag l r) ↔ (flag = true → ∀ r' ∈ l, p r ≤ p r') := by
  simp only [OrderedList] at hl ⊢
  unfold queueEnter
  split_ifs with hflag
  · simp [pairwise_append, hl, hflag]
  · simp [hl, hflag]

/-- No filter on the lists that `c` enters is lower: the loops for its place run to their ends. -/
def LowestOn (c : SetFilter) (s : FilterQueues) : Prop :=
  (c.filter.isIn = true → ∀ r ∈ s.rcvList, c.priority ≤ (s.infp r).priority) ∧
    (c.filter.isOut = true → ∀ r ∈ s.sndList, c.priority ≤ (s.infp r).priority)

instance (c : SetFilter) (s : FilterQueues) : Decidable (c.LowestOn s) :=
  inferInstanceAs (Decidable (_ ∧ _))

/-- If the call enters the filter, it is the lowest of those on the lists by then. -/
def Lowest (c : SetFilter) (s : FilterQueues) : Prop := ∀ x ∈ c.placed s, c.LowestOn x.2

instance (c : SetFilter) (s : FilterQueues) : Decidable (c.Lowest s) :=
  inferInstanceAs (Decidable (∀ x ∈ c.placed s, c.LowestOn x.2))

theorem insert_orderedList {r : Infp} {l : List Infp} {flag : Bool} (hr : r ∉ l)
    (hl : OrderedList (fun q => (s.infp q).priority) l) :
    OrderedList (fun q => ((c.insert r s).infp q).priority) (queueEnter flag l r) ↔
      (flag = true → ∀ r' ∈ l, c.priority ≤ (s.infp r').priority) := by
  have hsame : ∀ r' ∈ l, (s.infp r').priority = ((c.insert r s).infp r').priority := by
    intro r' hr'
    rw [insert_infp_of_mem hr hr']
  have hl' : OrderedList (fun q => ((c.insert r s).infp q).priority) l := hl.congr hsame
  rw [orderedList_queueEnter hl']
  apply imp_congr_right
  intro _
  apply forall₂_congr
  intro r' hr'
  rw [insert_infp_self, insert_infp_of_mem hr hr']

theorem addHashEntry_linked (h : s.Linked) (found : Nat) (r : Infp) :
    (c.addHashEntry found r s).Linked := by
  have hset : Prunes s (c.addHashEntry found r s) := h.prunes.set r _ fun _ => ⟨rfl, rfl, rfl⟩
  exact hset.linked

theorem addHashEntry_ordered (found : Nat) (r : Infp) :
    (c.addHashEntry found r s).Ordered ↔ s.Ordered := by
  have hsame : ∀ r', ((c.addHashEntry found r s).infp r').priority = (s.infp r').priority := by
    intro r'
    by_cases he : r' = r
    · subst he
      simp [addHashEntry]
    · simp [addHashEntry, set_infp_of_ne s _ he]
  simp only [FilterQueues.Ordered, hsame]
  rfl

theorem netSetFilter_linked (h : s.Linked) : (netSetFilter c s).2.Linked := by
  cases hp : c.placed s with
  | none => exact (netSetFilter_none h hp).linked
  | some x =>
    obtain ⟨hprunes, hnot, hlive⟩ := placed_spec h hp
    have hinsert := insert_linked (c := c) hprunes.linked hnot hlive
    rcases netSetFilter_some hp with heq | ⟨found, heq⟩
    · rw [heq]
      exact hinsert
    · rw [heq]
      exact addHashEntry_linked hinsert found _

theorem netSetFilter_ordered (h : s.Linked) (ho : s.Ordered) :
    (netSetFilter c s).2.Ordered ↔ c.Lowest s := by
  cases hp : c.placed s with
  | none =>
    have hkept := (netSetFilter_none h hp).ordered ho
    simp [hkept, Lowest, hp]
  | some x =>
    obtain ⟨hprunes, hnot, -⟩ := placed_spec h hp
    simp only [Listed, not_or] at hnot
    obtain ⟨hrcv, hsnd⟩ := hprunes.ordered ho
    have hinsert : (c.insert x.1 x.2).Ordered ↔ c.Lowest s := by
      simp only [Lowest, hp, Option.mem_some_iff, forall_eq']
      exact and_congr (insert_orderedList hnot.1 hrcv) (insert_orderedList hnot.2 hsnd)
    rcases netSetFilter_some hp with heq | ⟨found, heq⟩
    · rw [heq]
      exact hinsert
    · rw [heq, addHashEntry_ordered]
      exact hinsert

end SetFilter

inductive QueueCall where
  | set (c : SetFilter)
  | dead (out : Bool) (port : Nat)

def queueStep (s : FilterQueues) : QueueCall → Option FilterQueues
  | .set c => some (netSetFilter c s).2
  | .dead out port => some (removeDeadFilter out port s)

/-- A filter enters the lists only as the lowest of them. -/
def EntersLowest (s : FilterQueues) : QueueCall → Prop
  | .set c => c.Lowest s
  | .dead _ _ => True

instance (s : FilterQueues) : (call : QueueCall) → Decidable (EntersLowest s call)
  | .set c => inferInstanceAs (Decidable (c.Lowest s))
  | .dead _ _ => .isTrue trivial

/-- The lists of an interface stay ordered by priority in a run in which each filter that enters
them is the lowest. -/
theorem filters_ordered (s₀ : FilterQueues) (hrcv : s₀.rcvList = []) (hsnd : s₀.sndList = [])
    (s : FilterQueues) (hs : Reach queueStep EntersLowest s₀ s) : s.Ordered := by
  have hinit : s₀.Linked ∧ s₀.Ordered := by
    constructor
    · constructor
      all_goals simp [hrcv, hsnd, Listed]
    · simp [FilterQueues.Ordered, OrderedList, hrcv, hsnd]
  have hinv : s.Linked ∧ s.Ordered := by
    apply hs.invariant (fun s => s.Linked ∧ s.Ordered) hinit
    intro s call t hlinked hlowest hstep
    cases call with
    | set c =>
      cases hstep
      exact ⟨SetFilter.netSetFilter_linked hlinked.1,
        (SetFilter.netSetFilter_ordered hlinked.1 hlinked.2).mpr hlowest⟩
    | dead out port =>
      cases hstep
      have hprunes := prunes_removeDeadFilter hlinked.1 out port
      exact ⟨hprunes.linked, hprunes.ordered hlinked.2⟩
  exact hinv.2

/-- An interface without filters. -/
def noFilters : FilterQueues where
  rcvList := []
  sndList := []
  infp := fun _ => QueuedFilter.zero
  allocated := 0

theorem program_bytes_lt {insns : List BpfInsn} (h : sizeofBpfInsn * insns.length ≤ 256) :
    sizeofBpfInsn * insns.length < 2 ^ 31 :=
  Nat.lt_of_le_of_lt h (by decide)

theorem program_bytes_even {insns : List BpfInsn} (h : sizeofBpfInsn * insns.length < 2 ^ 31) :
    (program insns h).bytes % 2 = 0 := by
  simp only [program, sizeofBpfInsn]
  omega

/-- Set a filter of the instructions, while no other interface has a header. -/
def setFilter (rcvPort : Nat) (rcvPort_ne : rcvPort ≠ machPortNull) (priority : Int)
    (insns : List BpfInsn) (h : sizeofBpfInsn * insns.length ≤ 256) : SetFilter where
  rcvPort := rcvPort
  rcvPort_ne := rcvPort_ne
  priority := priority
  filter := program insns (program_bytes_lt h)
  even := program_bytes_even (program_bytes_lt h)
  bytes_le := h
  taken := fun _ => false

def acceptInsns : List BpfInsn := [beginIn, bpfStmt (bpfRet ||| bpfK) 64]

def matchInsns (key : Word) : List BpfInsn :=
  [beginIn, ⟨bpfRet ||| bpfMatchImm, 1, 0, 64⟩, bpfStmt (bpfMisc ||| bpfKey) key,
    bpfStmt (bpfRet ||| bpfK) 0]

/-- Two filters that share a header, and a lower one; then the port of the first dies. -/
def queueCalls : List QueueCall :=
  [.set (setFilter 1 (by decide) 10 (matchInsns 80) (by decide)),
    .set (setFilter 2 (by decide) 10 (matchInsns 443) (by decide)),
    .set (setFilter 3 (by decide) 5 acceptInsns (by decide)), .dead false 1]

theorem filters_ordered_queueCalls :
    ∃ s, runLabels queueStep noFilters queueCalls = some s ∧
      s.rcvList = [.hash ⟨0, by decide⟩, .rcv 0] ∧ s.Ordered := by
  have hrun : ∃ s, runLabels queueStep noFilters queueCalls = some s ∧
      s.rcvList = [.hash ⟨0, by decide⟩, .rcv 0] :=
    exists_run _ (fun s : FilterQueues => s.rcvList = [.hash ⟨0, by decide⟩, .rcv 0])
      (by decide +kernel)
  obtain ⟨s, hs, hlist⟩ := hrun
  exact ⟨s, hs, hlist, filters_ordered noFilters rfl rfl s
    (Reach.start.labels queueCalls (by decide +kernel) hs)⟩

/-- A filter with the higher priority that comes later is examined later. -/
theorem higher_filter_last :
    ∃ s, Reach queueStep (fun _ _ => True) noFilters s ∧ s.rcvList = [.rcv 0, .rcv 1] ∧
      (s.infp (.rcv 0)).priority = 5 ∧ (s.infp (.rcv 1)).priority = 10 ∧ ¬s.Ordered := by
  have hrun : ∃ s, runLabels queueStep noFilters
      [.set (setFilter 1 (by decide) 5 acceptInsns (by decide)),
        .set (setFilter 2 (by decide) 10 acceptInsns (by decide))] = some s ∧
      s.rcvList = [.rcv 0, .rcv 1] ∧ (s.infp (.rcv 0)).priority = 5 ∧
        (s.infp (.rcv 1)).priority = 10 :=
    exists_run _ (fun s : FilterQueues => s.rcvList = [.rcv 0, .rcv 1] ∧
      (s.infp (.rcv 0)).priority = 5 ∧ (s.infp (.rcv 1)).priority = 10) (by decide)
  obtain ⟨s, hs, hlist, hlow, hhigh⟩ := hrun
  have hreach : Reach queueStep (fun _ _ => True) noFilters s :=
    Reach.start.labels _ (admitsLabels_of_forall (fun _ _ => trivial) _ _) hs
  refine ⟨s, hreach, hlist, hlow, hhigh, ?_⟩
  intro hordered
  have hpair := hordered.1
  rw [hlist] at hpair
  simp [OrderedList, hlow, hhigh] at hpair

end Hurd.Bpf
