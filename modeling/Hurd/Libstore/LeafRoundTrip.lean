import Hurd.Framework.Outcome
import Hurd.Libstore.Decode
import Mathlib.Tactic.Linarith

/-!
# The encoding of a leaf, read back

`store_std_leaf_decode` at the place where `store_std_leaf_encode` has written, whatever else is in
the vectors before and behind that.
-/

namespace Hurd.Libstore

open List

theorem fetch_eq {α : Type} {vector : List α} {index : Nat} {value : α}
    (h : vector[index]? = some value) : fetch vector index = .ok value := by
  rw [fetch, h]

theorem fetch_middle {α : Type} (pre : List α) {middle : List α} (post : List α) {index : Nat}
    {value : α} (h : middle[index]? = some value) :
    fetch (pre ++ (middle ++ post)) (pre.length + index) = .ok value := by
  apply fetch_eq
  have hlt := (List.getElem?_eq_some_iff.mp h).1
  rw [List.getElem?_append_right (Nat.le_add_right _ _), Nat.add_sub_cancel_left,
    List.getElem?_append_left hlt, h]

theorem readRuns_middle (pre : List Int) (runs : List StoreRun) (post : List Int) :
    readRuns (pre ++ (runOffsets runs ++ post)) runs.length pre.length = .ok runs := by
  induction runs generalizing pre with
  | nil => rfl
  | cons run runs ih =>
    have hcons : runOffsets (run :: runs) = run.start :: run.length :: runOffsets runs := rfl
    have hstart := fetch_middle pre post
      (show (runOffsets (run :: runs))[0]? = some run.start from rfl)
    have hlength := fetch_middle pre post
      (show (runOffsets (run :: runs))[1]? = some run.length from rfl)
    have hrest := ih (pre ++ [run.start, run.length])
    simp only [length_append, length_cons, length_nil, Nat.zero_add,
      append_assoc, cons_append, nil_append] at hrest
    rw [length_cons, readRuns]
    rw [Nat.add_zero] at hstart
    rw [hstart, hlength, hcons]
    simp only [Except.bind, cons_append]
    rw [hrest]
    rfl

theorem intSizeT_of_small {n : Nat} (h : n < 2 ^ 31) : intSizeT (.ofNat 32 n) = n := by
  have hint : (BitVec.ofNat 32 n).toInt = n := by
    rw [BitVec.toInt_eq_toNat_cond, BitVec.toNat_ofNat, Nat.mod_eq_of_lt (by omega),
      if_pos (by omega)]
  rw [intSizeT, toSizeT, hint]
  omega

theorem intSizeT_of_large {n : Nat} (h : 2 ^ 31 ≤ n) (hlt : n < 2 ^ 32) :
    intSizeT (.ofNat 32 n) = 2 ^ 64 - 2 ^ 32 + n := by
  have hint : (BitVec.ofNat 32 n).toInt = n - 2 ^ 32 := by
    rw [BitVec.toInt_eq_toNat_cond, BitVec.toNat_ofNat, Nat.mod_eq_of_lt hlt, if_neg (by omega)]
    push_cast
    rfl
  rw [intSizeT, toSizeT, hint]
  omega

/-- A leaf as its class creates it, to which a name and further data have been given. -/
def IsLeaf (c : LeafClass) (s : Store) : Prop :=
  ∃ port flags blockSize runs info name misc,
    storeCreate (.leaf c) port flags blockSize runs 0 = .ok info ∧
      s = ⟨{ info with name := name, misc := misc }, []⟩

theorem IsLeaf.created {c : LeafClass} {s : Store} (h : IsLeaf c s) :
    ∃ info, storeCreate (.leaf c) s.info.port s.info.flags s.info.blockSize s.info.runs 0 =
        .ok info ∧
      ∀ misc, (⟨{ info with flags := s.info.flags, name := s.info.name, misc := misc }, []⟩ : Store)
        = ⟨{ s.info with misc := misc }, []⟩ := by
  obtain ⟨port, flags, blockSize, runs, info, name, misc, hcreate, rfl⟩ := h
  obtain ⟨-, -, hcls, rfl, rfl, rfl, rfl⟩ := storeCreate_ok hcreate
  exact ⟨info, hcreate, fun _ => rfl⟩

/-- The vectors with an encoding in the middle. -/
abbrev surround (pre e post : Vectors) : Vectors := pre.append (e.append post)

theorem readLeafHeader_middle (s : StoreInfo) (pre post : Vectors) :
    readLeafHeader (surround pre (storeStdLeafEncode s) post).ints pre.ints.length =
      .ok ⟨s.flags, intSizeT (.ofNat 32 s.blockSize), intSizeT (.ofNat 32 s.runs.length),
        intSizeT (.ofNat 32 (nameData s.name).length), intSizeT (.ofNat 32 s.misc.length)⟩ := by
  have hread : ∀ (index : Nat) {value : BitVec 32},
      (storeStdLeafEncode s).ints[index]? = some value →
      fetch (surround pre (storeStdLeafEncode s) post).ints (pre.ints.length + index) =
        .ok value := fun _ _ h => fetch_middle pre.ints post.ints h
  rw [readLeafHeader, hread 1 rfl, hread 2 rfl, hread 3 rfl, hread 4 rfl, hread 5 rfl]
  rfl

theorem stringOf_append (name : CString) (rest : List UInt8) :
    stringOf (name.bytes ++ 0 :: rest) = name := by
  have htake : (name.bytes ++ 0 :: rest).takeWhile (· ≠ 0) = name.bytes := by
    rw [takeWhile_append_of_pos]
    · simp
    · intro byte hbyte
      rw [decide_eq_true_iff]
      rintro rfl
      exact name.noNul hbyte
  cases name
  simp only [stringOf, htake]

theorem leafName_middle (name : Option CString) (pre misc post : List UInt8)
    (hfit : pre.length + (nameData name).length < 2 ^ 32) :
    leafName (pre ++ (nameData name ++ misc ++ post)) pre.length (nameData name).length =
      .ok name := by
  cases name with
  | none => rfl
  | some name =>
    have hlen : (nameData (some name)).length = name.bytes.length + 1 := by
      rw [nameData, length_append, length_singleton]
    have hlast : fetch (pre ++ (nameData (some name) ++ misc ++ post))
        ((pre.length + (nameData (some name)).length - 1) % 2 ^ 64) = .ok 0 := by
      have hindex : (pre.length + (nameData (some name)).length - 1) % 2 ^ 64 =
          pre.length + name.bytes.length := by
        omega
      rw [hindex, append_assoc]
      apply fetch_middle
      rw [nameData, List.getElem?_append_right le_rfl, Nat.sub_self]
      rfl
    have hdrop : (pre ++ (nameData (some name) ++ misc ++ post)).drop pre.length =
        name.bytes ++ 0 :: (misc ++ post) := by
      rw [drop_left, nameData]
      simp only [append_assoc, cons_append, nil_append]
    rw [leafName, if_neg (by omega), hlast]
    simp only [Except.bind, ne_eq, not_true_eq_false, if_false]
    rw [strdup, hdrop, if_pos (by simp), stringOf_append]
    rfl

theorem leafMisc_middle (name : Option CString) (pre misc post : List UInt8)
    (hfit : pre.length + (nameData name).length + misc.length < 2 ^ 32) :
    leafMisc (pre ++ (nameData name ++ misc ++ post)) (pre.length + (nameData name).length)
        (nameData name).length misc.length = .ok misc ↔
      name = none ∨ misc = [] ∨ misc <+: (misc ++ post).drop (nameData name).length := by
  by_cases hmisc : misc = []
  · subst hmisc
    simp [leafMisc]
  have hpos : misc.length ≠ 0 := fun h => hmisc (eq_nil_of_length_eq_zero h)
  have hstart : (pre.length + (nameData name).length + (nameData name).length) % 2 ^ 64 =
      pre.length + (nameData name).length + (nameData name).length := by
    omega
  have hdrop : (pre ++ (nameData name ++ misc ++ post)).drop
      (pre.length + (nameData name).length + (nameData name).length) =
        (misc ++ post).drop (nameData name).length := by
    rw [← drop_drop, ← drop_drop, drop_left, append_assoc, drop_left]
  -- without a name there is nothing to go wrong
  have hnone : (name = none ∨ misc = [] ∨ misc <+: (misc ++ post).drop (nameData name).length) ↔
      misc <+: (misc ++ post).drop (nameData name).length := by
    constructor
    · rintro (rfl | h | h)
      · exact prefix_append _ _
      · exact absurd h hmisc
      · exact h
    · intro h
      exact Or.inr (Or.inr h)
  rw [hnone, leafMisc, if_neg hpos, if_neg (by omega), hstart]
  simp only [hdrop, length_append]
  split
  · rw [Except.ok.injEq, prefix_iff_eq_take, eq_comm]
  · next hlong =>
      constructor
      · intro h
        cases h
      · intro h
        have hle := h.length_le
        rw [length_drop, length_append] at hle
        omega

theorem storeStdLeafDecode_middle {c : LeafClass} {s : Store} {pre post : Vectors}
    (hleaf : IsLeaf c s)
    (hfit : (surround pre (storeStdLeafEncode s.info) post).counts.Fit)
    (hname : (nameData s.info.name).length < 2 ^ 31) (hmisc : s.info.misc.length < 2 ^ 31) :
    storeStdLeafDecode (surround pre (storeStdLeafEncode s.info) post) c pre.counts =
      (leafMisc (surround pre (storeStdLeafEncode s.info) post).data
        (pre.data.length + (nameData s.info.name).length) (nameData s.info.name).length
        s.info.misc.length).map fun misc =>
          (⟨{ s.info with misc := misc }, []⟩,
            pre.counts.add (storeStdLeafEncode s.info).counts) := by
  obtain ⟨info, hcreate, hs⟩ := hleaf.created
  obtain ⟨hruns, hsize, -⟩ := storeCreate_ok hcreate
  have hpage : s.info.blockSize < 2 ^ 31 := lt_of_le_of_lt hsize (by decide)
  have hcounts := counts_storeStdLeafEncode s.info
  rw [surround, Vectors.counts_append, Vectors.counts_append, hcounts] at hfit
  obtain ⟨-, -, hoffsets, hdata⟩ := hfit
  simp only [Counts.add, Vectors.counts, storeStdLeafAllocateEncoding] at hoffsets hdata
  -- the header is what has been written
  have hheader := readLeafHeader_middle s.info pre post
  rw [intSizeT_of_small hpage, intSizeT_of_small (by omega), intSizeT_of_small hname,
    intSizeT_of_small hmisc] at hheader
  have hname' : leafName (surround pre (storeStdLeafEncode s.info) post).data pre.data.length
      (nameData s.info.name).length = .ok s.info.name :=
    leafName_middle s.info.name pre.data s.info.misc post.data (by omega)
  have hport' : fetch (surround pre (storeStdLeafEncode s.info) post).ports pre.ports.length =
      .ok s.info.port :=
    fetch_middle pre.ports post.ports (show (storeStdLeafEncode s.info).ports[0]? = _ from rfl)
  have hruns' : storeWithDecodedRuns (surround pre (storeStdLeafEncode s.info) post).offsets
      pre.offsets.length s.info.runs.length = .ok s.info.runs := by
    rw [storeWithDecodedRuns, if_neg (by omega)]
    exact readRuns_middle pre.offsets s.info.runs post.offsets
  have hints : ¬((surround pre (storeStdLeafEncode s.info) post).ints.length <
        pre.ints.length + 6 ∨
      (surround pre (storeStdLeafEncode s.info) post).ports.length < pre.ports.length + 1) := by
    simp only [surround, Vectors.append, storeStdLeafEncode, length_append, length_cons]
    omega
  have hlens : ¬((surround pre (storeStdLeafEncode s.info) post).offsets.length <
        (pre.offsets.length + s.info.runs.length * 2) % 2 ^ 64 ∨
      (surround pre (storeStdLeafEncode s.info) post).data.length <
        (pre.data.length + (nameData s.info.name).length + s.info.misc.length) % 2 ^ 64) := by
    simp only [surround, Vectors.append, storeStdLeafEncode, length_append,
      length_runOffsets]
    omega
  have hcur : (pre.data.length + (nameData s.info.name).length) % 2 ^ 64 =
      pre.data.length + (nameData s.info.name).length := Nat.mod_eq_of_lt (by omega)
  have hcur' : (pre.data.length + (nameData s.info.name).length + s.info.misc.length) % 2 ^ 64 =
      pre.data.length + (nameData s.info.name).length + s.info.misc.length :=
    Nat.mod_eq_of_lt (by omega)
  rw [storeStdLeafDecode]
  simp only [Vectors.counts, if_neg hints, hheader, Except.bind, if_neg hlens, hname', hcur]
  cases leafMisc (surround pre (storeStdLeafEncode s.info) post).data
      (pre.data.length + (nameData s.info.name).length) (nameData s.info.name).length
      s.info.misc.length with
  | error e => rfl
  | ok misc =>
    simp only [hport', hruns', hcreate, hcur', Except.map, hs]
    have hsum := counts_storeStdLeafEncode s.info
    simp only [Vectors.counts, storeStdLeafAllocateEncoding] at hsum
    rw [hsum]
    simp only [Counts.add, Nat.add_assoc]

theorem storeStdLeafDecode_data {v : Vectors} {c : LeafClass} {cur cur' : Counts} {s : Store}
    {h : LeafHeader} (hheader : readLeafHeader v.ints cur.ints = .ok h)
    (hdecode : storeStdLeafDecode v c cur = .ok (s, cur')) :
    cur'.data = ((cur.data + h.nameLen) % 2 ^ 64 + h.miscLen) % 2 ^ 64 := by
  rw [storeStdLeafDecode] at hdecode
  split at hdecode
  · cases hdecode
  rw [hheader, Except.bind] at hdecode
  dsimp only at hdecode
  split at hdecode
  · cases hdecode
  obtain ⟨name, -, hdecode⟩ := exceptBind_eq_ok.mp hdecode
  obtain ⟨misc, -, hdecode⟩ := exceptBind_eq_ok.mp hdecode
  obtain ⟨port, -, hdecode⟩ := exceptBind_eq_ok.mp hdecode
  obtain ⟨runs, -, hdecode⟩ := exceptBind_eq_ok.mp hdecode
  obtain ⟨info, -, hdecode⟩ := exceptMap_eq_ok.mp hdecode
  cases hdecode
  rfl

/-- What has been encoded of a leaf is decoded, and all of it is consumed. -/
def LeafRoundTrips (c : LeafClass) (s : Store) (pre post : Vectors) : Prop :=
  ∃ s', storeStdLeafDecode (surround pre (storeStdLeafEncode s.info) post) c pre.counts =
      .ok (s', pre.counts.add (storeStdLeafEncode s.info).counts) ∧
    s'.info.flags = s.info.flags ∧ s'.info.blockSize = s.info.blockSize ∧
    s'.info.runs = s.info.runs ∧ s'.info.name = s.info.name ∧ s'.info.misc = s.info.misc

/-- The name and the further data have lengths that are no negative `int`, and the further data are
also found where they are looked for. -/
def LeafReadable (s : StoreInfo) (post : Vectors) : Prop :=
  (nameData s.name).length < 2 ^ 31 ∧ s.misc.length < 2 ^ 31 ∧
    (s.name = none ∨ s.misc = [] ∨ s.misc <+: (s.misc ++ post.data).drop (nameData s.name).length)

theorem data_lt_of_fit {s : StoreInfo} {pre post : Vectors}
    (hfit : (surround pre (storeStdLeafEncode s) post).counts.Fit) :
    pre.data.length + (nameData s.name).length + s.misc.length < 2 ^ 32 := by
  have hdata := hfit.2.2.2
  simp only [surround, Vectors.counts, Vectors.append, storeStdLeafEncode,
    length_append] at hdata
  omega

theorem storeStdLeafDecode_encode {c : LeafClass} {s : Store} {pre post : Vectors}
    (hleaf : IsLeaf c s) (hfit : (surround pre (storeStdLeafEncode s.info) post).counts.Fit)
    (hread : LeafReadable s.info post) :
    storeStdLeafDecode (surround pre (storeStdLeafEncode s.info) post) c pre.counts =
      .ok (s, pre.counts.add (storeStdLeafEncode s.info).counts) := by
  obtain ⟨hname, hmisc, hfound⟩ := hread
  have hmisc' := (leafMisc_middle s.info.name pre.data s.info.misc post.data
    (data_lt_of_fit hfit)).mpr hfound
  have hleaf' := hleaf
  obtain ⟨port, flags, blockSize, runs, info, name, misc, -, rfl⟩ := hleaf'
  rw [storeStdLeafDecode_middle hleaf hfit hname hmisc]
  exact exceptMap_eq_ok.mpr ⟨_, hmisc', rfl⟩

theorem lengths_small {c : LeafClass} {s s' : Store} {pre post : Vectors}
    (hfit : (surround pre (storeStdLeafEncode s.info) post).counts.Fit)
    (hdecode : storeStdLeafDecode (surround pre (storeStdLeafEncode s.info) post) c pre.counts =
      .ok (s', pre.counts.add (storeStdLeafEncode s.info).counts)) :
    (nameData s.info.name).length < 2 ^ 31 ∧ s.info.misc.length < 2 ^ 31 := by
  have hdata := data_lt_of_fit hfit
  have hend := storeStdLeafDecode_data (readLeafHeader_middle s.info pre post) hdecode
  simp only [Counts.add, Vectors.counts, storeStdLeafEncode, length_append] at hend
  -- each of the two may have lost 2³² on the way
  obtain hname | hname := Nat.lt_or_ge (nameData s.info.name).length (2 ^ 31)
  · obtain hmisc | hmisc := Nat.lt_or_ge s.info.misc.length (2 ^ 31)
    · exact ⟨hname, hmisc⟩
    · rw [intSizeT_of_small hname, intSizeT_of_large hmisc (by omega)] at hend
      omega
  · obtain hmisc | hmisc := Nat.lt_or_ge s.info.misc.length (2 ^ 31)
    · rw [intSizeT_of_large hname (by omega), intSizeT_of_small hmisc] at hend
      omega
    · omega

theorem LeafRoundTrips.readable {c : LeafClass} {s : Store} {pre post : Vectors}
    (hleaf : IsLeaf c s) (hfit : (surround pre (storeStdLeafEncode s.info) post).counts.Fit)
    (h : LeafRoundTrips c s pre post) : LeafReadable s.info post := by
  obtain ⟨s', hdecode, -, -, -, -, hsame⟩ := h
  obtain ⟨hname, hmisc⟩ := lengths_small hfit hdecode
  refine ⟨hname, hmisc, ?_⟩
  rw [storeStdLeafDecode_middle hleaf hfit hname hmisc] at hdecode
  obtain ⟨misc, hread, hs'⟩ := exceptMap_eq_ok.mp hdecode
  have hfield : misc = s.info.misc := by
    rw [← hsame, ← (Prod.mk.inj hs').1]
    rfl
  rw [hfield] at hread
  exact (leafMisc_middle s.info.name pre.data s.info.misc post.data
    (data_lt_of_fit hfit)).mp hread

theorem leaf_round_trip_iff {c : LeafClass} {s : Store} {pre post : Vectors} (hleaf : IsLeaf c s)
    (hfit : (surround pre (storeStdLeafEncode s.info) post).counts.Fit) :
    LeafRoundTrips c s pre post ↔ LeafReadable s.info post := by
  constructor
  · intro htrip
    exact htrip.readable hleaf hfit
  · intro hread
    exact ⟨s, storeStdLeafDecode_encode hleaf hfit hread, rfl, rfl, rfl, rfl, rfl⟩

theorem isLeaf_deviceStore (name : Option CString) (misc : List UInt8) :
    IsLeaf .device (deviceStore 8 name misc) := by
  refine ⟨1, 0, 512, [⟨0, 8⟩], (deviceStore 8 none []).info, name, misc, ?_, rfl⟩
  decide

/-- The name `hd0`. -/
def diskName : CString := ⟨[104, 100, 48], by decide⟩

theorem leaf_round_trip_named :
    LeafRoundTrips .device (deviceStore 8 (some diskName) []) .empty .empty := by
  refine (leaf_round_trip_iff (isLeaf_deviceStore _ _) ?_).mpr ⟨?_, ?_, Or.inr (Or.inl rfl)⟩
  · refine ⟨?_, ?_, ?_, ?_⟩ <;> decide
  · decide
  · decide

/-- A name and one byte of further data, which is not found. -/
theorem leaf_named_misc_overreads :
    storeStdLeafDecode (storeStdLeafEncode (deviceStore 8 (some diskName) [7]).info) .device .zero =
        .error .overread ∧
      ¬LeafRoundTrips .device (deviceStore 8 (some diskName) [7]) .empty .empty := by
  have hstop : storeStdLeafDecode
      (storeStdLeafEncode (deviceStore 8 (some diskName) [7]).info) .device .zero =
        .error .overread := rfl
  refine ⟨hstop, ?_⟩
  rintro ⟨s', hdecode, -⟩
  rw [surround, Vectors.append_empty, Vectors.empty_append, Vectors.counts_empty, hstop] at hdecode
  cases hdecode

end Hurd.Libstore
