import Hurd.Libstore.Store
import Mathlib.Data.List.Basic
import Mathlib.Tactic.Ring

/-!
# The encoding of stores

What `store_encode` of `libstore/encode.c` writes for a tree of stores, and the sizes that the
`allocate_encoding` methods compute for it. The sizes are `mach_msg_type_number_t`, that is they
have 32 bits, and the vectors are as long as these say.
-/

namespace Hurd.Libstore

open List Option

/-- A number for each of the four vectors of an encoding. -/
structure Counts where
  ports : Nat
  ints : Nat
  offsets : Nat
  data : Nat
  deriving DecidableEq, Repr

/-- The contents of the four vectors of an encoding, or of a part of them. -/
structure Vectors where
  ports : List Nat
  ints : List (BitVec 32)
  offsets : List Int
  data : List UInt8
  deriving DecidableEq

namespace Counts

def zero : Counts := ⟨0, 0, 0, 0⟩

def add (m n : Counts) : Counts :=
  ⟨m.ports + n.ports, m.ints + n.ints, m.offsets + n.offsets, m.data + n.data⟩

/-- What is left of some numbers in 32 bits. -/
def wrap (n : Counts) : Counts :=
  ⟨n.ports % 2 ^ 32, n.ints % 2 ^ 32, n.offsets % 2 ^ 32, n.data % 2 ^ 32⟩

def Within (m n : Counts) : Prop :=
  m.ports ≤ n.ports ∧ m.ints ≤ n.ints ∧ m.offsets ≤ n.offsets ∧ m.data ≤ n.data

instance countsWithinDecidable (m n : Counts) : Decidable (m.Within n) :=
  inferInstanceAs (Decidable (_ ∧ _ ∧ _ ∧ _))

theorem Within.trans {m n k : Counts} (h : m.Within n) (h' : n.Within k) : m.Within k :=
  ⟨h.1.trans h'.1, h.2.1.trans h'.2.1, h.2.2.1.trans h'.2.2.1, h.2.2.2.trans h'.2.2.2⟩

theorem add_assoc (m n k : Counts) : (m.add n).add k = m.add (n.add k) := by
  simp only [add, Nat.add_assoc]

@[simp]
theorem add_zero (n : Counts) : n.add zero = n := rfl

@[simp]
theorem zero_add (n : Counts) : zero.add n = n := by
  simp only [add, zero, Nat.zero_add]

theorem within_add (m n : Counts) : m.Within (m.add n) :=
  ⟨Nat.le_add_right _ _, Nat.le_add_right _ _, Nat.le_add_right _ _, Nat.le_add_right _ _⟩

@[simp]
theorem wrap_wrap_add (m n : Counts) : (m.wrap.add n).wrap = (m.add n).wrap := by
  simp only [add, wrap, Nat.mod_add_mod]

end Counts

namespace Vectors

def empty : Vectors := ⟨[], [], [], []⟩

def append (v w : Vectors) : Vectors :=
  ⟨v.ports ++ w.ports, v.ints ++ w.ints, v.offsets ++ w.offsets, v.data ++ w.data⟩

def counts (v : Vectors) : Counts :=
  ⟨v.ports.length, v.ints.length, v.offsets.length, v.data.length⟩

theorem append_assoc (u v w : Vectors) : (u.append v).append w = u.append (v.append w) := by
  simp only [append, List.append_assoc]

@[simp]
theorem append_empty (v : Vectors) : v.append empty = v := by
  simp only [append, empty, append_nil]

@[simp]
theorem empty_append (v : Vectors) : empty.append v = v := rfl

@[simp]
theorem counts_append (v w : Vectors) : (v.append w).counts = v.counts.add w.counts := by
  simp only [counts, append, Counts.add, length_append]

@[simp]
theorem counts_empty : empty.counts = .zero := rfl

end Vectors

/-- `struct store_enc` while it is written: the sizes of the vectors, and what is in them up to
the cursors. -/
structure StoreEnc where
  num : Counts
  written : Vectors

namespace StoreEnc

/-- Some values are written at the cursors. There is none if that would be behind the end of a
vector. -/
def put (enc : StoreEnc) (v : Vectors) : Option StoreEnc :=
  if (enc.written.append v).counts.Within enc.num then some ⟨enc.num, enc.written.append v⟩
  else none

theorem put_append (enc : StoreEnc) (v w : Vectors) :
    (enc.put v).bind (·.put w) = enc.put (v.append w) := by
  by_cases h : (enc.written.append v).counts.Within enc.num
  · rw [put, if_pos h, bind_some]
    simp only [put, Vectors.append_assoc]
  · rw [put, if_neg h, put, if_neg, bind_none]
    intro hall
    apply h
    rw [← Vectors.append_assoc, Vectors.counts_append] at hall
    exact (Counts.within_add _ _).trans hall

end StoreEnc

/-- The starts and lengths of some runs. -/
def runOffsets (runs : List StoreRun) : List Int :=
  runs.flatMap fun run => [run.start, run.length]

def nameData : Option CString → List UInt8
  | none => []
  | some name => name.bytes ++ [0]

/-- What `store_std_leaf_allocate_encoding` adds to the sizes. -/
def storeStdLeafAllocateEncoding (s : StoreInfo) : Counts :=
  ⟨1, 6, s.runs.length * 2, (nameData s.name).length + s.misc.length⟩

/-- What `store_std_leaf_encode` writes. Offsets have as many bits in the vector as in a run. -/
def storeStdLeafEncode (s : StoreInfo) : Vectors :=
  { ports := [s.port]
    ints := [s.cls.id, s.flags, .ofNat 32 s.blockSize, .ofNat 32 s.runs.length,
      .ofNat 32 (nameData s.name).length, .ofNat 32 s.misc.length]
    offsets := runOffsets s.runs
    data := nameData s.name ++ s.misc }

/-- What `remap_allocate_encoding` adds before the child. -/
def remapAllocateEncoding (s : StoreInfo) : Counts := ⟨0, 3, s.runs.length * 2, 0⟩

/-- What `remap_encode` writes before the child. -/
def remapEncode (s : StoreInfo) : Vectors :=
  { ports := []
    ints := [s.cls.id, s.flags, .ofNat 32 s.runs.length]
    offsets := runOffsets s.runs
    data := [] }

/-- What `ileave_allocate_encoding` adds before the children. -/
def ileaveAllocateEncoding : Counts := ⟨0, 4, 0, 0⟩

/-- What `ileave_encode` writes before the children. The interleave factor is in blocks. -/
def ileaveEncode (s : StoreInfo) (numChildren : Nat) : Vectors :=
  { ports := []
    ints := [s.cls.id, s.flags, .ofInt 32 s.wrapDst, .ofNat 32 numChildren]
    offsets := []
    data := [] }

/-- What `concat_allocate_encoding` adds before the children. -/
def concatAllocateEncoding : Counts := ⟨0, 3, 0, 0⟩

/-- What `concat_encode` writes before the children. -/
def concatEncode (s : StoreInfo) (numChildren : Nat) : Vectors :=
  { ports := []
    ints := [s.cls.id, s.flags, .ofNat 32 numChildren]
    offsets := []
    data := [] }

/-- The `allocate_encoding` methods, with `store_allocate_child_encodings`. -/
def Store.allocateEncoding : Store → Counts → Counts
  | mk info children, num =>
      match info.cls with
      | .leaf _ => (num.add (storeStdLeafAllocateEncoding info)).wrap
      | .remap => kids children (num.add (remapAllocateEncoding info)).wrap
      | .interleave => kids children (num.add ileaveAllocateEncoding).wrap
      | .concat => kids children (num.add concatAllocateEncoding).wrap
where
  kids : List Store → Counts → Counts
    | [], num => num
    | kid :: rest, num => kids rest (allocateEncoding kid num)

/-- The `encode` methods, with `store_encode_children`. -/
def Store.encode : Store → StoreEnc → Option StoreEnc
  | mk info children, enc =>
      match info.cls with
      | .leaf _ => enc.put (storeStdLeafEncode info)
      | .remap => (enc.put (remapEncode info)).bind (kids children)
      | .interleave => (enc.put (ileaveEncode info children.length)).bind (kids children)
      | .concat => (enc.put (concatEncode info children.length)).bind (kids children)
where
  kids : List Store → StoreEnc → Option StoreEnc
    | [], enc => some enc
    | kid :: rest, enc => (encode kid enc).bind (kids rest)

/-- `store_encode`. There is none if it writes behind the end of a vector. -/
def storeEncode (s : Store) : Option StoreEnc :=
  s.encode ⟨s.allocateEncoding .zero, .empty⟩

/-- All that is written for a tree. -/
def Store.encoding : Store → Vectors
  | mk info children =>
      match info.cls with
      | .leaf _ => storeStdLeafEncode info
      | .remap => (remapEncode info).append (kids children)
      | .interleave => (ileaveEncode info children.length).append (kids children)
      | .concat => (concatEncode info children.length).append (kids children)
where
  kids : List Store → Vectors
    | [] => .empty
    | kid :: rest => (encoding kid).append (kids rest)

theorem length_runOffsets (runs : List StoreRun) : (runOffsets runs).length = runs.length * 2 := by
  induction runs with
  | nil => rfl
  | cons run runs ih =>
    rw [runOffsets, flatMap_cons, length_append, ← runOffsets, ih, length_cons]
    rw [length_cons, length_cons, length_nil]
    ring

/-! One equation for each class says that its method for the sizes counts what it writes. -/

theorem counts_storeStdLeafEncode (s : StoreInfo) :
    (storeStdLeafEncode s).counts = storeStdLeafAllocateEncoding s := by
  simp [storeStdLeafEncode, storeStdLeafAllocateEncoding, Vectors.counts, length_runOffsets]

theorem counts_remapEncode (s : StoreInfo) : (remapEncode s).counts = remapAllocateEncoding s := by
  simp [remapEncode, remapAllocateEncoding, Vectors.counts, length_runOffsets]

theorem counts_ileaveEncode (s : StoreInfo) (n : Nat) :
    (ileaveEncode s n).counts = ileaveAllocateEncoding := rfl

theorem counts_concatEncode (s : StoreInfo) (n : Nat) :
    (concatEncode s n).counts = concatAllocateEncoding := rfl

theorem put_bind_kids {kids : List Store}
    (h : ∀ kid ∈ kids, ∀ enc, kid.encode enc = enc.put kid.encoding) (enc : StoreEnc)
    (v : Vectors) :
    (enc.put v).bind (Store.encode.kids kids) = enc.put (v.append (Store.encoding.kids kids)) := by
  induction kids generalizing v with
  | nil =>
    rw [Store.encoding.kids, Vectors.append_empty]
    cases enc.put v <;> rfl
  | cons kid rest ih =>
    obtain ⟨hkid, hrest⟩ := forall_mem_cons.mp h
    have hstep : Store.encode.kids (kid :: rest) =
        fun enc => (enc.put kid.encoding).bind (Store.encode.kids rest) := by
      funext enc
      rw [Store.encode.kids, hkid enc]
    rw [hstep, ← bind_assoc, StoreEnc.put_append, ih hrest, Vectors.append_assoc,
      Store.encoding.kids]

theorem Store.encode_eq (s : Store) (enc : StoreEnc) : s.encode enc = enc.put s.encoding := by
  induction s using Store.forall_of_children generalizing enc with
  | h info children ih =>
    cases hcls : info.cls with
    | leaf c => simp only [encode, encoding, hcls]
    | remap => simp only [encode, encoding, hcls, put_bind_kids ih]
    | interleave => simp only [encode, encoding, hcls, put_bind_kids ih]
    | concat => simp only [encode, encoding, hcls, put_bind_kids ih]

theorem allocateEncoding_kids {kids : List Store}
    (h : ∀ kid ∈ kids, ∀ num, kid.allocateEncoding num = (num.add kid.encoding.counts).wrap)
    (num : Counts) :
    Store.allocateEncoding.kids kids num.wrap =
      (num.add (Store.encoding.kids kids).counts).wrap := by
  induction kids generalizing num with
  | nil => rfl
  | cons kid rest ih =>
    obtain ⟨hkid, hrest⟩ := forall_mem_cons.mp h
    rw [Store.allocateEncoding.kids, hkid, Counts.wrap_wrap_add, ih hrest, Counts.add_assoc,
      Store.encoding.kids, Vectors.counts_append]

theorem Store.allocateEncoding_eq (s : Store) (num : Counts) :
    s.allocateEncoding num = (num.add s.encoding.counts).wrap := by
  induction s using Store.forall_of_children generalizing num with
  | h info children ih =>
    cases hcls : info.cls with
    | leaf c => simp only [allocateEncoding, encoding, hcls, counts_storeStdLeafEncode]
    | remap =>
      simp only [allocateEncoding, encoding, hcls, allocateEncoding_kids ih,
        Vectors.counts_append, counts_remapEncode, Counts.add_assoc]
    | interleave =>
      simp only [allocateEncoding, encoding, hcls, allocateEncoding_kids ih,
        Vectors.counts_append, counts_ileaveEncode, Counts.add_assoc]
    | concat =>
      simp only [allocateEncoding, encoding, hcls, allocateEncoding_kids ih,
        Vectors.counts_append, counts_concatEncode, Counts.add_assoc]

theorem storeEncode_eq (s : Store) :
    storeEncode s = StoreEnc.put ⟨s.encoding.counts.wrap, .empty⟩ s.encoding := by
  rw [storeEncode, Store.encode_eq, Store.allocateEncoding_eq, Counts.zero_add]

/-- The sum of the numbers of the stores of a tree that are encoded. -/
def Store.total (f : StoreInfo → Nat) : Store → Nat
  | mk info children =>
      match info.cls with
      | .leaf _ => f info
      | .remap | .interleave | .concat => f info + kids children
where
  kids : List Store → Nat
    | [] => 0
    | kid :: rest => total f kid + kids rest

def StoreInfo.portCount (s : StoreInfo) : Nat :=
  match s.cls with
  | .leaf _ => 1
  | .remap | .interleave | .concat => 0

def StoreInfo.intCount (s : StoreInfo) : Nat :=
  match s.cls with
  | .leaf _ => 6
  | .remap => 3
  | .interleave => 4
  | .concat => 3

/-- The runs of a leaf and of a remapped store are encoded, with two offsets for each. -/
def StoreInfo.offsetCount (s : StoreInfo) : Nat :=
  match s.cls with
  | .leaf _ | .remap => s.runs.length * 2
  | .interleave | .concat => 0

/-- The bytes of the name and of what else there is about a leaf. -/
def StoreInfo.dataCount (s : StoreInfo) : Nat :=
  match s.cls with
  | .leaf _ => (nameData s.name).length + s.misc.length
  | .remap | .interleave | .concat => 0

/-- The four sums over a tree. -/
def Store.totals (s : Store) : Counts :=
  ⟨s.total (·.portCount), s.total (·.intCount), s.total (·.offsetCount), s.total (·.dataCount)⟩

theorem kids_counts {kids : List Store} (h : ∀ kid ∈ kids, kid.encoding.counts = kid.totals) :
    (Store.encoding.kids kids).counts =
      ⟨Store.total.kids (·.portCount) kids, Store.total.kids (·.intCount) kids,
        Store.total.kids (·.offsetCount) kids, Store.total.kids (·.dataCount) kids⟩ := by
  induction kids with
  | nil => rfl
  | cons kid rest ih =>
    obtain ⟨hkid, hrest⟩ := forall_mem_cons.mp h
    rw [Store.encoding.kids, Vectors.counts_append, hkid, ih hrest]
    rfl

theorem Store.counts_encoding (s : Store) : s.encoding.counts = s.totals := by
  induction s using Store.forall_of_children with
  | h info children ih =>
    cases hcls : info.cls with
    | leaf c =>
      simp [encoding, totals, total, hcls, counts_storeStdLeafEncode, StoreInfo.portCount,
        StoreInfo.intCount, StoreInfo.offsetCount, StoreInfo.dataCount,
        storeStdLeafAllocateEncoding]
    | remap =>
      simp [encoding, totals, total, hcls, counts_remapEncode, StoreInfo.portCount,
        StoreInfo.intCount, StoreInfo.offsetCount, StoreInfo.dataCount,
        remapAllocateEncoding, kids_counts ih, Counts.add]
    | interleave =>
      simp [encoding, totals, total, hcls, counts_ileaveEncode, StoreInfo.portCount,
        StoreInfo.intCount, StoreInfo.offsetCount, StoreInfo.dataCount,
        ileaveAllocateEncoding, kids_counts ih, Counts.add]
    | concat =>
      simp [encoding, totals, total, hcls, counts_concatEncode, StoreInfo.portCount,
        StoreInfo.intCount, StoreInfo.offsetCount, StoreInfo.dataCount,
        concatAllocateEncoding, kids_counts ih, Counts.add]

/-- Nothing is written behind the end of a vector, and none is left with a rest that is not
written. -/
def EncodesExactly (s : Store) : Prop :=
  ∃ enc, storeEncode s = some enc ∧ enc.written.counts = s.allocateEncoding .zero

/-- The numbers are all below 2³². -/
def Counts.Fit (n : Counts) : Prop :=
  n.ports < 2 ^ 32 ∧ n.ints < 2 ^ 32 ∧ n.offsets < 2 ^ 32 ∧ n.data < 2 ^ 32

theorem Counts.wrap_eq_iff (n : Counts) : n.wrap = n ↔ n.Fit := by
  rw [wrap, Fit, Counts.mk.injEq]
  omega

theorem Counts.within_wrap_iff (n : Counts) : n.Within n.wrap ↔ n.Fit := by
  simp only [wrap, Fit, Within]
  omega

theorem storeEncode_none {s : Store} (h : ¬s.totals.Fit) : storeEncode s = none := by
  rw [storeEncode_eq, StoreEnc.put, Vectors.empty_append, if_neg]
  rw [Store.counts_encoding, Counts.within_wrap_iff]
  exact h

theorem storeEncode_some {s : Store} {enc : StoreEnc} (h : storeEncode s = some enc) :
    enc.written = s.encoding ∧ s.encoding.counts.Fit := by
  rw [storeEncode_eq, StoreEnc.put, Vectors.empty_append] at h
  split at h
  · next hroom =>
      cases h
      exact ⟨rfl, (Counts.within_wrap_iff _).mp hroom⟩
  · cases h

/-- The sizes are those of what is written unless one of them needs more than 32 bits. -/
theorem encodes_exactly_iff (s : Store) : EncodesExactly s ↔ s.totals.Fit := by
  constructor
  · rintro ⟨enc, henc, -⟩
    by_contra h
    rw [storeEncode_none h] at henc
    cases henc
  · intro h
    refine ⟨⟨s.encoding.counts.wrap, s.encoding⟩, ?_, ?_⟩
    · rw [storeEncode_eq, StoreEnc.put, Vectors.empty_append, if_pos]
      rw [Store.counts_encoding, Counts.within_wrap_iff]
      exact h
    · rw [Store.allocateEncoding_eq, Counts.zero_add, Store.counts_encoding]
      exact ((Counts.wrap_eq_iff _).mpr h).symm

theorem totals_deviceStore (misc : List UInt8) :
    (deviceStore 8 none misc).totals = ⟨1, 6, 2, misc.length⟩ := by
  simp [Store.totals, Store.total, deviceStore, StoreInfo.portCount, StoreInfo.intCount,
    StoreInfo.offsetCount, StoreInfo.dataCount, nameData]

/-- If there are 2³² bytes of further data, there is room for none of them. -/
theorem encode_misc_overruns :
    ((deviceStore 8 none (List.replicate (2 ^ 32) 0)).allocateEncoding .zero).data = 0 ∧
      storeEncode (deviceStore 8 none (List.replicate (2 ^ 32) 0)) = none ∧
      ¬EncodesExactly (deviceStore 8 none (List.replicate (2 ^ 32) 0)) := by
  generalize hmisc : List.replicate (2 ^ 32) (0 : UInt8) = misc
  have hlen : misc.length = 2 ^ 32 := by rw [← hmisc, length_replicate]
  have hfit : ¬(deviceStore 8 none misc).totals.Fit := by
    rw [totals_deviceStore, hlen]
    intro h
    exact lt_irrefl _ h.2.2.2
  have hnone := storeEncode_none hfit
  refine ⟨?_, hnone, ?_⟩
  · rw [Store.allocateEncoding_eq, Counts.zero_add, Store.counts_encoding, totals_deviceStore,
      Counts.wrap, hlen]
    exact Nat.mod_self _
  · rintro ⟨enc, henc, -⟩
    rw [hnone] at henc
    cases henc

end Hurd.Libstore
