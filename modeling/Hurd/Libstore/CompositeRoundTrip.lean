import Hurd.Libstore.LeafRoundTrip
import Hurd.Libstore.Rebuild
import Mathlib.Algebra.Order.BigOperators.Group.List

/-!
# The encoding of a tree, read back

What `store_decode` makes of the encoding of a tree of stores, and whether that has the same address
space as the tree.
-/

namespace Hurd.Libstore

open List

/-- Two trees of one shape, with a relation between the stores at each place. -/
def Store.Lift (R : StoreInfo → StoreInfo → Prop) : Store → Store → Prop
  | mk info kids, t => R info t.info ∧ all kids t.children
where
  all : List Store → List Store → Prop
    | [], [] => True
    | [], _ :: _ => False
    | _ :: _, [] => False
    | kid :: rest, kid' :: rest' => Lift R kid kid' ∧ all rest rest'

section Lift

variable {R S : StoreInfo → StoreInfo → Prop} {s t : Store} {kids kids' : List Store}

theorem Store.Lift.info (h : s.Lift R t) : R s.info t.info := by
  cases s
  exact h.1

theorem Store.Lift.children (h : s.Lift R t) : Lift.all R s.children t.children := by
  cases s
  exact h.2

theorem Store.Lift.mono (hRS : ∀ i j, R i j → S i j) (h : s.Lift R t) : s.Lift S t := by
  induction s using Store.forall_of_children generalizing t with
  | h info kids ih =>
    refine ⟨hRS _ _ h.1, ?_⟩
    have hall := h.2
    generalize t.children = kids' at hall
    clear h
    induction kids generalizing kids' with
    | nil =>
      cases kids' with
      | nil => trivial
      | cons => exact hall.elim
    | cons kid rest ih' =>
      cases kids' with
      | nil => exact hall.elim
      | cons kid' rest' =>
        obtain ⟨hkid, hrest⟩ := forall_mem_cons.mp ih
        exact ⟨hkid hall.1, ih' hrest rest' hall.2⟩

end Lift

/-- Two stores with one address space: each block is at the same place of the underlying storage,
and a leaf is the same leaf. -/
structure SameSpace (i j : StoreInfo) : Prop where
  cls : j.cls = i.cls
  leaf : ∀ c, i.cls = .leaf c → j = i
  size : j.endBlock * j.blockSize = i.endBlock * i.blockSize
  log2BlockSize : j.log2BlockSize = i.log2BlockSize
  locate : ∀ addr, storeLocate j addr = storeLocate i addr

theorem translate_child {i j : StoreInfo} {kids kids' : List Store} (hcls : j.cls = i.cls)
    (hlog : j.log2BlockSize = i.log2BlockSize)
    (h : ∀ kid ∈ kids, ∀ t, kid.Lift SameSpace t → ∀ addr, t.translate addr = kid.translate addr)
    (hall : Store.Lift.all SameSpace kids kids') (skip index : Nat) (addr : Int) :
    Store.translate.child kids' j skip index addr = Store.translate.child kids i skip index addr := by
  induction kids generalizing kids' skip with
  | nil =>
    cases kids' with
    | nil => rfl
    | cons => exact hall.elim
  | cons kid rest ih =>
    cases kids' with
    | nil => exact hall.elim
    | cons kid' rest' =>
      obtain ⟨hkid, hrest⟩ := forall_mem_cons.mp h
      cases skip with
      | zero =>
        have hlog' := hall.1.info.log2BlockSize
        simp only [Store.translate.child, hcls, addrAdj, hlog, hlog', hkid kid' hall.1]
      | succ skip =>
        rw [Store.translate.child, Store.translate.child]
        exact ih hrest hall.2 skip

theorem translate_eq {s t : Store} (h : s.Lift SameSpace t) (addr : Int) :
    t.translate addr = s.translate addr := by
  induction s using Store.forall_of_children generalizing t addr with
  | h info kids ih =>
    obtain ⟨info', kids'⟩ := t
    obtain ⟨hinfo, hall⟩ := h
    have hchild := fun skip index addr =>
      translate_child hinfo.cls hinfo.log2BlockSize (fun kid hkid t => ih kid hkid) hall skip
        index addr
    simp only [Store.info_mk, Store.children_mk] at hinfo hall hchild
    simp only [Store.translate, hinfo.locate, hinfo.cls, hchild]

variable {v pre post rest : Vectors} {decode : Decoder} {fuel : Nat}

theorem ofId_id (cls : StoreClass) : StoreClass.ofId cls.id = some cls := by
  cases cls with
  | leaf c => cases c <;> decide
  | concat => decide
  | interleave => decide
  | remap => decide

theorem fetch_ints {e : Vectors} (hv : v = surround pre e post) (index : Nat) {value : BitVec 32}
    (h : e.ints[index]? = some value) : fetch v.ints (pre.counts.ints + index) = .ok value := by
  rw [hv]
  exact fetch_middle pre.ints post.ints h

theorem storeDecodeFuel_type {e : Vectors} {cls : StoreClass} (hv : v = surround pre e post)
    (he : e.ints[0]? = some cls.id) :
    storeDecodeFuel v (fuel + 1) pre.counts =
      cls.decode v (storeDecodeFuel v fuel) pre.counts := by
  have htype := fetch_ints hv 0 he
  rw [Nat.add_zero] at htype
  have hlt : ¬v.ints.length ≤ pre.counts.ints := by
    intro hle
    rw [fetch, List.getElem?_eq_none hle] at htype
    cases htype
  rw [storeDecodeFuel, if_neg hlt, htype]
  simp only [Except.bind, ofId_id]

theorem length_ints (hv : v = surround pre rest post) :
    pre.counts.ints + rest.ints.length ≤ v.ints.length := by
  rw [hv]
  simp only [surround, Vectors.append, Vectors.counts, length_append]
  omega

theorem remapDecode_encode {info : StoreInfo}
    (hv : v = surround pre ((remapEncode info).append rest) post)
    (hruns : 16 * info.runs.length < 2 ^ 32) :
    remapDecode v decode pre.counts =
      (decode (pre.append (remapEncode info)).counts).bind fun (source, cur) =>
        (storeRemapCreate source info.runs info.flags).map fun s => (s, cur) := by
  have hlen := length_ints hv
  have hthree : ¬v.ints.length < pre.counts.ints + 3 := by
    simp only [Vectors.append, remapEncode, length_append, length_cons] at hlen
    omega
  have hsize : intSizeT (.ofNat 32 info.runs.length) = info.runs.length :=
    intSizeT_of_small (by omega)
  have hoffsets : v.offsets = pre.offsets ++ (runOffsets info.runs ++ (rest.offsets ++ post.offsets))
      := by
    rw [hv]
    simp only [surround, Vectors.append, remapEncode, append_assoc]
  have hread : storeWithDecodedRuns v.offsets pre.counts.offsets info.runs.length =
      .ok info.runs := by
    rw [storeWithDecodedRuns, if_neg (by omega), hoffsets]
    exact readRuns_middle pre.offsets info.runs _
  have hcur : (pre.append (remapEncode info)).counts =
      { pre.counts with
        ints := pre.counts.ints + 3, offsets := pre.counts.offsets + info.runs.length * 2 } := by
    rw [Vectors.counts_append, counts_remapEncode]
    rfl
  rw [remapDecode, if_neg hthree, fetch_ints hv 1 rfl, fetch_ints hv 2 rfl]
  simp only [Except.bind, hsize, hread, hcur]

theorem decodeKids_eq {n : Nat} (hn : 8 * n < 2 ^ 32) (cur : Counts)
    (create : List Store → Except Stop Store) :
    decodeKids decode (.ofNat 32 n) cur create =
      (storeDecodeChildren decode n cur).bind fun (kids, cur) =>
        (create kids).map fun s => (s, cur) := by
  have hnat : (BitVec.ofNat 32 n).toNat = n := by
    rw [BitVec.toNat_ofNat, Nat.mod_eq_of_lt (by omega)]
  have hint : (BitVec.ofNat 32 n).toInt = n := by
    rw [BitVec.toInt_eq_toNat_cond, hnat, if_pos (by omega)]
  rw [decodeKids, hint, if_neg (by omega), hnat]

theorem concatDecode_encode {info : StoreInfo} {n : Nat}
    (hv : v = surround pre ((concatEncode info n).append rest) post) (hn : 8 * n < 2 ^ 32) :
    concatDecode v decode pre.counts =
      (storeDecodeChildren decode n (pre.append (concatEncode info n)).counts).bind
        fun (kids, cur) => (storeConcatCreate kids info.flags).map fun s => (s, cur) := by
  have hlen := length_ints hv
  have hthree : ¬v.ints.length < pre.counts.ints + 3 := by
    simp only [Vectors.append, concatEncode, length_append, length_cons] at hlen
    omega
  have hcur : (pre.append (concatEncode info n)).counts =
      { pre.counts with ints := pre.counts.ints + 3 } := by
    rw [Vectors.counts_append, counts_concatEncode]
    rfl
  rw [concatDecode, if_neg hthree, fetch_ints hv 1 rfl, fetch_ints hv 2 rfl]
  simp only [Except.bind, decodeKids_eq hn, hcur]

theorem ileaveDecode_encode {info : StoreInfo} {n : Nat}
    (hv : v = surround pre ((ileaveEncode info n).append rest) post) (hn : 8 * n < 2 ^ 32) :
    ileaveDecode v decode pre.counts =
      (storeDecodeChildren decode n (pre.append (ileaveEncode info n)).counts).bind
        fun (kids, cur) =>
          (storeIleaveCreate kids (BitVec.ofInt 32 info.wrapDst).toInt info.flags).map
            fun s => (s, cur) := by
  have hlen := length_ints hv
  have hfour : ¬v.ints.length < pre.counts.ints + 4 := by
    simp only [Vectors.append, ileaveEncode, length_append, length_cons] at hlen
    omega
  have hcur : (pre.append (ileaveEncode info n)).counts =
      { pre.counts with ints := pre.counts.ints + 4 } := by
    rw [Vectors.counts_append, counts_ileaveEncode]
    rfl
  rw [ileaveDecode, if_neg hfour, fetch_ints hv 1 rfl, fetch_ints hv 2 rfl, fetch_ints hv 3 rfl]
  simp only [Except.bind, decodeKids_eq hn, hcur]

/-- Stores that differ in nothing that matters: an interleaved store without children may have
another `wrap_dst`. -/
def Alike (i j : StoreInfo) : Prop :=
  j = i ∨ (i.cls = .interleave ∧ i.runs = [] ∧ ∃ wrapDst, j = { i with wrapDst := wrapDst })

theorem Alike.sameSpace {i j : StoreInfo} (h : Alike i j) : SameSpace i j := by
  obtain rfl | ⟨hcls, hruns, wrapDst, rfl⟩ := h
  · exact ⟨rfl, fun _ _ => rfl, rfl, rfl, fun _ => rfl⟩
  · refine ⟨rfl, ?_, rfl, rfl, ?_⟩
    · intro c hleaf
      rw [hcls] at hleaf
      cases hleaf
    · intro addr
      simp only [storeLocate, storeFindFirstRun, hruns, findRun, Option.map_none, Option.bind_none]

theorem Alike.face {s t : Store} (h : Alike s.info t.info) : t.face = s.face := by
  obtain h | ⟨-, -, wrapDst, h⟩ := h
  · rw [Store.face, h, Store.face]
  · rw [Store.face, h, Store.face]

theorem faces_eq {kids kids' : List Store} (h : Store.Lift.all Alike kids kids') :
    kids'.map Store.face = kids.map Store.face := by
  induction kids generalizing kids' with
  | nil =>
    cases kids' with
    | nil => rfl
    | cons => exact h.elim
  | cons kid rest ih =>
    cases kids' with
    | nil => exact h.elim
    | cons kid' rest' => rw [map_cons, map_cons, h.1.info.face, ih h.2]

/-- The interleave factor in blocks can be taken for one in bytes. Without children it need only
not be zero in 32 bits. -/
def IleaveReadable (info : StoreInfo) (numChildren : Nat) : Prop :=
  if numChildren = 0 then BitVec.ofInt 32 info.wrapDst ≠ 0
  else info.blockSize = 1 ∧ info.wrapDst < 2 ^ 31

/-- All interleaved stores of a tree can be read back. -/
def Store.Readable : Store → Prop
  | mk info kids => (info.cls = .interleave → IleaveReadable info kids.length) ∧ all kids
where
  all : List Store → Prop
    | [] => True
    | kid :: rest => Readable kid ∧ all rest

/-- Trees that the constructors have built from leaves each of which is read back by itself. Runs
have no negative length. -/
inductive Built : Store → Prop
  | leaf {c : LeafClass} {s : Store} (hleaf : IsLeaf c s) (htrip : LeafRoundTrips c s .empty .empty)
      (hruns : ∀ run ∈ s.info.runs, 0 ≤ run.length) : Built s
  | remap {source s : Store} {runs : List StoreRun} {flags : BitVec 32} (hsource : Built source)
      (hruns : ∀ run ∈ runs, 0 ≤ run.length) (hs : storeRemapCreate source runs flags = .ok s) :
      Built s
  | concat {kids : List Store} {s : Store} {flags : BitVec 32} (hkids : ∀ kid ∈ kids, Built kid)
      (hs : storeConcatCreate kids flags = .ok s) : Built s
  | interleave {kids : List Store} {s : Store} {interleave : Int} {flags : BitVec 32}
      (hkids : ∀ kid ∈ kids, Built kid) (hpos : 0 < interleave) (hlt : interleave < 2 ^ 63)
      (hs : storeIleaveCreate kids interleave flags = .ok s) : Built s

theorem Store.readable_all_iff {kids : List Store} :
    Readable.all kids ↔ ∀ kid ∈ kids, kid.Readable := by
  induction kids with
  | nil => simp [Readable.all]
  | cons kid rest ih => simp [Readable.all, ih]

/-- A store of a tree is read back if its interleaved stores can be, and only then. -/
structure Reads (v : Vectors) (decode : Decoder) (s : Store) : Prop where
  back : s.Readable → ∀ pre post, v = surround pre s.encoding post →
    ∃ t, decode pre.counts = .ok (t, pre.counts.add s.encoding.counts) ∧ s.Lift Alike t
  only : ∀ pre post t cur, v = surround pre s.encoding post → decode pre.counts = .ok (t, cur) →
    s.Lift SameSpace t → s.Readable

theorem surround_first (pre first rest post : Vectors) :
    surround pre (first.append rest) post = surround pre first (rest.append post) := by
  simp only [surround, Vectors.append_assoc]

theorem surround_rest (pre first rest post : Vectors) :
    surround pre (first.append rest) post = surround (pre.append first) rest post := by
  simp only [surround, Vectors.append_assoc]

theorem children_back {kids : List Store} (h : ∀ kid ∈ kids, Reads v decode kid)
    (hread : ∀ kid ∈ kids, kid.Readable) {pre : Vectors}
    (hv : v = surround pre (Store.encoding.kids kids) post) :
    ∃ kids', storeDecodeChildren decode kids.length pre.counts =
        .ok (kids', pre.counts.add (Store.encoding.kids kids).counts) ∧
      Store.Lift.all Alike kids kids' := by
  induction kids generalizing pre with
  | nil => exact ⟨[], rfl, trivial⟩
  | cons kid rest ih =>
    obtain ⟨hkid, hrest⟩ := forall_mem_cons.mp h
    obtain ⟨hkid', hrest'⟩ := forall_mem_cons.mp hread
    obtain ⟨t, ht, halike⟩ := hkid.back hkid' pre _ (hv.trans (surround_first _ _ _ _))
    obtain ⟨kids', hkids', halike'⟩ := ih hrest hrest' (hv.trans (surround_rest _ _ _ _))
    rw [Vectors.counts_append] at hkids'
    refine ⟨t :: kids', ?_, halike, halike'⟩
    rw [length_cons, storeDecodeChildren, ht, Store.encoding.kids, Vectors.counts_append,
      ← Counts.add_assoc]
    simp only [Except.bind, hkids', Except.map]

theorem children_only {kids kids' : List Store} {cur : Counts}
    (h : ∀ kid ∈ kids, Reads v decode kid) {pre : Vectors}
    (hv : v = surround pre (Store.encoding.kids kids) post)
    (hdecode : storeDecodeChildren decode kids.length pre.counts = .ok (kids', cur))
    (hsame : Store.Lift.all SameSpace kids kids') : ∀ kid ∈ kids, kid.Readable := by
  induction kids generalizing pre kids' cur with
  | nil => exact fun _ hkid => absurd hkid not_mem_nil
  | cons kid rest ih =>
    obtain ⟨hkid, hrest⟩ := forall_mem_cons.mp h
    have hfirst := hv.trans (surround_first _ _ _ _)
    obtain ⟨⟨t, cur'⟩, ht, hdecode⟩ := exceptBind_eq_ok.mp hdecode
    obtain ⟨⟨rest', cur''⟩, hrest', hdecode⟩ := exceptMap_eq_ok.mp hdecode
    cases hdecode
    have hread := hkid.only pre _ t cur' hfirst ht hsame.1
    obtain ⟨t', ht', -⟩ := hkid.back hread pre _ hfirst
    obtain ⟨-, rfl⟩ := Prod.mk.inj (Except.ok.inj (ht'.symm.trans ht))
    rw [← Vectors.counts_append] at hrest'
    exact forall_mem_cons.mpr
      ⟨hread, ih hrest (hv.trans (surround_rest _ _ _ _)) hrest' hsame.2⟩

theorem toInt_ofInt_small {n : Int} (hlow : 0 ≤ n) (hlt : n < 2 ^ 31) :
    (BitVec.ofInt 32 n).toInt = n := by
  rw [BitVec.toInt_ofInt]
  apply Int.bmod_eq_of_le_mul_two
  · push_cast
    omega
  · push_cast
    omega

theorem toInt_bounds (n : BitVec 32) : -2 ^ 31 ≤ n.toInt ∧ n.toInt < 2 ^ 31 := by
  have hlow := BitVec.le_toInt n
  have hhigh := BitVec.toInt_lt (x := n)
  omega

theorem ileaveBlocks_one {n : Int} (hlow : 0 ≤ n) (hlt : n < 2 ^ 31) : ileaveBlocks n 1 = n := by
  have hsize := toSizeT_of_nonneg hlow (by omega)
  rw [ileaveBlocks, Nat.div_one, ofSizeT_of_lt (by omega), hsize]

theorem ofSizeT_neg {n : Nat} (h : 2 ^ 63 ≤ n) (hlt : n < 2 ^ 64) : ofSizeT n < 0 := by
  have hsub : (n : Int) = (n - 2 ^ 64 : Int) + ((2 ^ 64 : Nat) : Int) := by
    push_cast
    omega
  have hmod : ofSizeT n = n - 2 ^ 64 :=
    calc ofSizeT n = ((n - 2 ^ 64 : Int) + ((2 ^ 64 : Nat) : Int)).bmod (2 ^ 64) :=
          congrArg (Int.bmod · (2 ^ 64)) hsub
      _ = (n - 2 ^ 64 : Int).bmod (2 ^ 64) := Int.add_bmod_right _ _
      _ = n - 2 ^ 64 := by
        apply Int.bmod_eq_of_le_mul_two
        · push_cast
          omega
        · push_cast
          omega
  omega

theorem readable_of_ileaveBlocks {factor : Int} {blockSize : Nat} (hpos : 0 < factor)
    (hzero : blockSize ≠ 0) (hpage : blockSize ≤ vmPageSize)
    (hlt : factor * blockSize < 2 ^ 63)
    (h : ileaveBlocks (BitVec.ofInt 32 factor).toInt blockSize = factor) :
    blockSize = 1 ∧ factor < 2 ^ 31 := by
  obtain ⟨hlow, hhigh⟩ := toInt_bounds (BitVec.ofInt 32 factor)
  have hsmall := toInt_ofInt_small hpos.le
  generalize (BitVec.ofInt 32 factor).toInt = int at h hlow hhigh hsmall
  rw [ileaveBlocks] at h
  have hle := Nat.div_le_self (toSizeT int) blockSize
  obtain hneg | hnonneg := lt_or_ge int 0
  · -- a factor that is taken for a negative one is much larger in blocks
    have hbig : 2 ^ 64 - 2 ^ 31 ≤ toSizeT int ∧ toSizeT int < 2 ^ 64 := by
      rw [toSizeT]
      omega
    have hsplit := Nat.div_add_mod (toSizeT int) blockSize
    have hrest := Nat.mod_lt (toSizeT int) (Nat.pos_of_ne_zero hzero)
    obtain hlarge | hhalf := Nat.lt_or_ge (toSizeT int / blockSize) (2 ^ 63)
    · rw [ofSizeT_of_lt hlarge] at h
      have hprod : ((blockSize * (toSizeT int / blockSize) : Nat) : Int) = factor * blockSize := by
        rw [← h]
        push_cast
        ring
      rw [vmPageSize] at hpage
      omega
    · have hlast := ofSizeT_neg hhalf (by omega)
      omega
  · have hsize := toSizeT_of_nonneg hnonneg (by omega)
    rw [ofSizeT_of_lt (by omega)] at h
    have hint := hsmall (by omega)
    have hself : toSizeT int / blockSize = toSizeT int := by omega
    obtain hnone | hone := Nat.div_eq_self.mp hself
    · omega
    · exact ⟨hone, by omega⟩

theorem Vectors.Fit.middle {e : Vectors} (h : (surround pre e post).counts.Fit) :
    (surround .empty e .empty).counts.Fit := by
  simp only [surround, Vectors.counts_append, Vectors.counts_empty, Counts.Fit, Counts.add,
    Counts.zero] at h ⊢
  omega

theorem LeafReadable.everywhere {info : StoreInfo} (h : LeafReadable info .empty)
    (post : Vectors) : LeafReadable info post := by
  obtain ⟨hname, hmisc, hfound⟩ := h
  refine ⟨hname, hmisc, ?_⟩
  obtain hnone | hnil | hprefix := hfound
  · exact Or.inl hnone
  · exact Or.inr (Or.inl hnil)
  · cases hcase : info.name with
    | none => exact Or.inl rfl
    | some name =>
      -- there is not enough room behind the name for all of it
      have hle := hprefix.length_le
      rw [Vectors.empty, append_nil, length_drop, hcase, nameData, length_append,
        length_singleton] at hle
      right
      left
      apply eq_nil_of_length_eq_zero
      omega

theorem IsLeaf.shape {c : LeafClass} {s : Store} (h : IsLeaf c s) :
    s.info.cls = .leaf c ∧ s.children = [] := by
  obtain ⟨port, flags, blockSize, runs, info, name, misc, hcreate, rfl⟩ := h
  exact ⟨(storeCreate_ok hcreate).2.2.1, rfl⟩

theorem Store.encoding_leaf {c : LeafClass} {s : Store} (h : s.info.cls = .leaf c) :
    s.encoding = storeStdLeafEncode s.info := by
  obtain ⟨info, kids⟩ := s
  rw [Store.info_mk] at h
  simp only [Store.encoding, h, Store.info_mk]

theorem reads_leaf {c : LeafClass} {s : Store} (hleaf : IsLeaf c s)
    (htrip : LeafRoundTrips c s .empty .empty) (hfit : v.counts.Fit)
    (hfuel : s.encoding.ints.length ≤ fuel) : Reads v (storeDecodeFuel v fuel) s := by
  obtain ⟨hcls, hkids⟩ := hleaf.shape
  have henc := Store.encoding_leaf hcls
  rw [henc] at hfuel
  obtain ⟨fuel, rfl⟩ : ∃ n, fuel = n + 1 := ⟨fuel - 1, by
    simp only [storeStdLeafEncode, length_cons] at hfuel
    omega⟩
  constructor
  · intro _ pre post hv
    rw [henc] at hv ⊢
    rw [hv] at hfit
    have hread := (htrip.readable hleaf (Vectors.Fit.middle hfit)).everywhere post
    refine ⟨s, ?_, ?_⟩
    · have htype : (storeStdLeafEncode s.info).ints[0]? = some (StoreClass.leaf c).id := by
        rw [← hcls]
        rfl
      rw [storeDecodeFuel_type hv htype, hv]
      exact storeStdLeafDecode_encode hleaf hfit hread
    · obtain ⟨info, kids⟩ := s
      exact ⟨Or.inl rfl, by rw [Store.children_mk] at hkids; subst hkids; trivial⟩
  · intro pre post t cur _ _ _
    obtain ⟨info, kids⟩ := s
    rw [Store.children_mk] at hkids
    subst hkids
    refine ⟨?_, trivial⟩
    intro hile
    rw [Store.info_mk, hile] at hcls
    cases hcls

theorem reads_remap {source s : Store} {runs : List StoreRun} {flags : BitVec 32}
    (hs : storeRemapCreate source runs flags = .ok s)
    (h : Reads v (storeDecodeFuel v fuel) source) : Reads v (storeDecodeFuel v (fuel + 1)) s := by
  obtain ⟨info, hcreate, hinfo⟩ := storeRemapCreate_ok hs
  obtain ⟨hlen, -, hcls, -, -, -, hruns⟩ := storeCreate_ok hcreate
  have henc : s.encoding = (remapEncode info).append source.encoding := by
    rw [hinfo, Store.encoding]
    simp only [hcls, Store.encoding.kids, Vectors.append_empty]
  have hread : s.Readable ↔ source.Readable := by
    simp [hinfo, Store.Readable, Store.Readable.all, hcls]
  have hstep : ∀ {pre post}, v = surround pre s.encoding post →
      storeDecodeFuel v (fuel + 1) pre.counts =
        (storeDecodeFuel v fuel (pre.append (remapEncode info)).counts).bind fun (source, cur) =>
          (storeRemapCreate source info.runs info.flags).map fun s => (s, cur) := by
    intro pre post hv
    rw [henc] at hv
    have htype : ((remapEncode info).append source.encoding).ints[0]? =
        some StoreClass.remap.id := by
      rw [← hcls]
      rfl
    rw [storeDecodeFuel_type hv htype]
    exact remapDecode_encode hv (by rw [hruns]; exact hlen)
  constructor
  · intro hreadable pre post hv
    have hv' := hv
    rw [henc] at hv'
    obtain ⟨t, ht, halike⟩ := h.back (hread.mp hreadable) _ post (hv'.trans (surround_rest _ _ _ _))
    have hagain := storeRemapCreate_again hs halike.info.face
    rw [hinfo, Store.info_mk] at hagain
    refine ⟨⟨info, [t]⟩, ?_, ?_⟩
    · rw [hstep hv, ht, henc, Vectors.counts_append, Vectors.counts_append, Counts.add_assoc]
      simp only [Except.bind, hruns, hagain, Except.map]
    · rw [hinfo]
      exact ⟨Or.inl rfl, halike, trivial⟩
  · intro pre post t cur hv hdecode hsame
    rw [hstep hv] at hdecode
    obtain ⟨⟨source', cur'⟩, hsource, hdecode⟩ := exceptBind_eq_ok.mp hdecode
    obtain ⟨t', ht', hpair⟩ := exceptMap_eq_ok.mp hdecode
    cases hpair
    obtain ⟨info', -, rfl⟩ := storeRemapCreate_ok ht'
    rw [henc] at hv
    rw [hinfo] at hsame
    exact hread.mpr (h.only _ post source' cur (hv.trans (surround_rest _ _ _ _)) hsource
      hsame.children.1)

theorem reads_concat {kids : List Store} {s : Store} {flags : BitVec 32}
    (hs : storeConcatCreate kids flags = .ok s)
    (h : ∀ kid ∈ kids, Reads v (storeDecodeFuel v fuel) kid) :
    Reads v (storeDecodeFuel v (fuel + 1)) s := by
  obtain ⟨blockSize, made, name, -, hcreate, hlen, -, hinfo⟩ := storeConcatCreate_ok hs
  obtain ⟨info, hmade⟩ : ∃ info : StoreInfo, info = { made with name := name } := ⟨_, rfl⟩
  rw [← hmade] at hinfo
  have hcls : info.cls = .concat := by
    rw [hmade]
    exact (storeCreate_ok hcreate).2.2.1
  have henc : s.encoding = (concatEncode info kids.length).append (Store.encoding.kids kids) := by
    rw [hinfo, Store.encoding]
    simp only [hcls]
  have hread : s.Readable ↔ ∀ kid ∈ kids, kid.Readable := by
    simp [hinfo, Store.Readable, Store.readable_all_iff, hcls]
  have hstep : ∀ {pre post}, v = surround pre s.encoding post →
      storeDecodeFuel v (fuel + 1) pre.counts =
        (storeDecodeChildren (storeDecodeFuel v fuel) kids.length
          (pre.append (concatEncode info kids.length)).counts).bind fun (kids, cur) =>
            (storeConcatCreate kids info.flags).map fun s => (s, cur) := by
    intro pre post hv
    rw [henc] at hv
    have htype : ((concatEncode info kids.length).append (Store.encoding.kids kids)).ints[0]? =
        some StoreClass.concat.id := by
      rw [← hcls]
      rfl
    rw [storeDecodeFuel_type hv htype]
    exact concatDecode_encode hv hlen
  constructor
  · intro hreadable pre post hv
    have hv' := hv
    rw [henc] at hv'
    obtain ⟨kids', hkids', halike⟩ :=
      children_back h (hread.mp hreadable) (hv'.trans (surround_rest _ _ _ _))
    have hagain := storeConcatCreate_again hs (faces_eq halike)
    rw [hinfo, Store.info_mk] at hagain
    refine ⟨⟨info, kids'⟩, ?_, ?_⟩
    · rw [hstep hv, hkids', henc, Vectors.counts_append, Vectors.counts_append, Counts.add_assoc]
      simp only [Except.bind, hagain, Except.map]
    · rw [hinfo]
      exact ⟨Or.inl rfl, halike⟩
  · intro pre post t cur hv hdecode hsame
    rw [hstep hv] at hdecode
    obtain ⟨⟨kids', cur'⟩, hkids', hdecode⟩ := exceptBind_eq_ok.mp hdecode
    obtain ⟨t', ht', hpair⟩ := exceptMap_eq_ok.mp hdecode
    cases hpair
    obtain ⟨_, _, _, -, -, -, -, rfl⟩ := storeConcatCreate_ok ht'
    rw [henc] at hv
    rw [hinfo] at hsame
    exact hread.mpr (children_only h (hv.trans (surround_rest _ _ _ _)) hkids' hsame.children)

theorem storeIleaveCreate_facts {kids : List Store} {s : Store} {interleave : Int}
    {flags : BitVec 32} (hpos : 0 < interleave) (hlt : interleave < 2 ^ 63)
    (hs : storeIleaveCreate kids interleave flags = .ok s) :
    commonBlockSize kids = .ok s.info.blockSize ∧ s.info.blockSize ≠ 0 ∧
      s.info.blockSize ≤ vmPageSize ∧ s.info.cls = .interleave ∧ s.children = kids ∧
      8 * kids.length < 2 ^ 32 ∧ 0 < s.info.wrapDst ∧
      s.info.wrapDst * s.info.blockSize < 2 ^ 63 ∧ (kids = [] → s.info.runs = []) := by
  obtain ⟨blockSize, info, hsize, hzero, hle, hmod, hcreate, hlen, rfl⟩ := storeIleaveCreate_ok hs
  obtain ⟨-, hpage, hcls, -, -, hblock, hruns⟩ := storeCreate_ok hcreate
  have hsizeT := toSizeT_of_nonneg hpos.le (by omega)
  have hexact := Nat.div_mul_cancel (Nat.dvd_of_mod_eq_zero hmod)
  have hquot : 0 < toSizeT interleave / blockSize := Nat.div_pos hle (Nat.pos_of_ne_zero hzero)
  have hself := Nat.div_le_self (toSizeT interleave) blockSize
  have hfactor : ileaveBlocks interleave blockSize = (toSizeT interleave / blockSize : Nat) :=
    ofSizeT_of_lt (by omega)
  simp only [Store.info_mk, Store.children_mk, hblock, hcls, hruns]
  refine ⟨hsize, hzero, hpage, trivial, trivial, hlen, ?_, ?_, ?_⟩
  · rw [hfactor]
    omega
  · rw [hfactor]
    have hcast : ((toSizeT interleave / blockSize * blockSize : Nat) : Int) = toSizeT interleave :=
      congrArg Nat.cast hexact
    push_cast at hcast ⊢
    omega
  · rintro rfl
    rfl

theorem storeIleaveCreate_factor {kids kids' : List Store} {s : Store} {interleave : Int}
    {flags : BitVec 32} (hpos : 0 < interleave) (hlt : interleave < 2 ^ 63)
    (hs : storeIleaveCreate kids interleave flags = .ok s)
    (hface : kids'.map Store.face = kids.map Store.face)
    (hread : IleaveReadable s.info kids.length) :
    ∃ wrapDst, storeIleaveCreate kids' (BitVec.ofInt 32 s.info.wrapDst).toInt s.info.flags =
        .ok ⟨{ s.info with wrapDst := wrapDst }, kids'⟩ ∧
      (kids = [] ∨ wrapDst = s.info.wrapDst) := by
  obtain ⟨hsize, hzero, -, -, -, -, hfactor, -, -⟩ := storeIleaveCreate_facts hpos hlt hs
  rw [IleaveReadable] at hread
  split at hread
  · next hlen =>
      have hnil : kids = [] := eq_nil_of_length_eq_zero hlen
      have hone : s.info.blockSize = 1 := by
        rw [hnil] at hsize
        exact (Except.ok.inj hsize).symm
      have hint : (BitVec.ofInt 32 s.info.wrapDst).toInt ≠ 0 := by
        intro hz
        exact hread (BitVec.toInt_inj.mp (hz.trans BitVec.toInt_zero.symm))
      obtain ⟨hlow, hhigh⟩ := toInt_bounds (BitVec.ofInt 32 s.info.wrapDst)
      have hle : s.info.blockSize ≤ toSizeT (BitVec.ofInt 32 s.info.wrapDst).toInt := by
        rw [hone, toSizeT]
        omega
      refine ⟨_, storeIleaveCreate_again hs hface hsize hle ?_ (Or.inl hnil), Or.inl hnil⟩
      rw [hone, Nat.mod_one]
  · obtain ⟨hone, hsmall⟩ := hread
    have hint := toInt_ofInt_small hfactor.le hsmall
    have hsizeT := toSizeT_of_nonneg hfactor.le (by omega)
    have hblocks := ileaveBlocks_one hfactor.le hsmall
    refine ⟨_, storeIleaveCreate_again hs hface hsize ?_ ?_ (Or.inr ?_), Or.inr ?_⟩
    · rw [hint, hone]
      omega
    · rw [hone, Nat.mod_one]
    · rw [hint, hone, hblocks]
    · rw [hint, hone, hblocks]

theorem ileaveReadable_of_size {kids kids' : List Store} {s t : Store} {interleave : Int}
    {flags : BitVec 32} (hpos : 0 < interleave) (hlt : interleave < 2 ^ 63)
    (hends : ∀ kid ∈ kids, 0 ≤ kid.info.endBlock)
    (hs : storeIleaveCreate kids interleave flags = .ok s)
    (hface : kids'.map Store.face = kids.map Store.face)
    (ht : storeIleaveCreate kids' (BitVec.ofInt 32 s.info.wrapDst).toInt s.info.flags = .ok t)
    (hsame : t.info.endBlock * t.info.blockSize = s.info.endBlock * s.info.blockSize) :
    IleaveReadable s.info kids.length := by
  obtain ⟨hsize, hzero, hpage, -, -, -, hfactor, hprod, -⟩ := storeIleaveCreate_facts hpos hlt hs
  have hmap : (kids'.map fun kid => kid.info.endBlock) = kids.map fun kid => kid.info.endBlock :=
    map_of_face (·.endBlock) (fun _ => rfl) hface
  have hends' : ∀ kid ∈ kids', 0 ≤ kid.info.endBlock := by
    intro kid hkid
    have hmem : kid.info.endBlock ∈ kids'.map fun kid => kid.info.endBlock :=
      mem_map_of_mem (f := fun kid => kid.info.endBlock) hkid
    rw [hmap] at hmem
    obtain ⟨kid', hkid', heq⟩ := mem_map.mp hmem
    rw [← heq]
    exact hends kid' hkid'
  have hend := storeIleaveCreate_endBlock hs hends
  have hend' := storeIleaveCreate_endBlock ht hends'
  rw [length_of_face hface] at hend'
  obtain ⟨blockSize, info, hsize', -, hle, -, hcreate, -, rfl⟩ := storeIleaveCreate_ok ht
  rw [commonBlockSize_face, hface, ← commonBlockSize_face, hsize] at hsize'
  obtain rfl := Except.ok.inj hsize'
  have hblock : info.blockSize = s.info.blockSize := (storeCreate_ok hcreate).2.2.2.2.2.1
  rw [IleaveReadable]
  split
  · intro hz
    rw [hz] at hle
    exact hzero (Nat.le_zero.mp hle)
  · next hne =>
      rw [hend', hend] at hsame
      simp only [Store.info_mk, hblock] at hsame
      have hn : (kids.length : Int) ≠ 0 := Int.natCast_ne_zero.mpr hne
      have hbs : (s.info.blockSize : Int) ≠ 0 := Int.natCast_ne_zero.mpr hzero
      have hblocks := Int.eq_of_mul_eq_mul_left hn (Int.eq_of_mul_eq_mul_right hbs hsame)
      exact readable_of_ileaveBlocks hfactor hzero hpage hprod hblocks

theorem reads_interleave {kids : List Store} {s : Store} {interleave : Int} {flags : BitVec 32}
    (hpos : 0 < interleave) (hlt : interleave < 2 ^ 63)
    (hends : ∀ kid ∈ kids, 0 ≤ kid.info.endBlock)
    (hs : storeIleaveCreate kids interleave flags = .ok s)
    (h : ∀ kid ∈ kids, Reads v (storeDecodeFuel v fuel) kid) :
    Reads v (storeDecodeFuel v (fuel + 1)) s := by
  obtain ⟨-, -, -, hcls, hkids, hlen, -, -, hruns⟩ := storeIleaveCreate_facts hpos hlt hs
  obtain ⟨info, children⟩ := s
  rw [Store.children_mk] at hkids
  subst hkids
  rw [Store.info_mk] at hcls hruns
  have henc : (Store.mk info children).encoding =
      (ileaveEncode info children.length).append (Store.encoding.kids children) := by
    rw [Store.encoding]
    simp only [hcls]
  have hread : (Store.mk info children).Readable ↔
      IleaveReadable info children.length ∧ ∀ kid ∈ children, kid.Readable := by
    simp [Store.Readable, Store.readable_all_iff, hcls]
  have hstep : ∀ {pre post}, v = surround pre (Store.mk info children).encoding post →
      storeDecodeFuel v (fuel + 1) pre.counts =
        (storeDecodeChildren (storeDecodeFuel v fuel) children.length
          (pre.append (ileaveEncode info children.length)).counts).bind fun (kids, cur) =>
            (storeIleaveCreate kids (BitVec.ofInt 32 info.wrapDst).toInt info.flags).map
              fun s => (s, cur) := by
    intro pre post hv
    rw [henc] at hv
    have htype : ((ileaveEncode info children.length).append
        (Store.encoding.kids children)).ints[0]? = some StoreClass.interleave.id := by
      rw [← hcls]
      rfl
    rw [storeDecodeFuel_type hv htype]
    exact ileaveDecode_encode hv hlen
  constructor
  · intro hreadable pre post hv
    have hv' := hv
    rw [henc] at hv'
    obtain ⟨hile, hall⟩ := hread.mp hreadable
    obtain ⟨kids', hkids', halike⟩ := children_back h hall (hv'.trans (surround_rest _ _ _ _))
    obtain ⟨wrapDst, hagain, hsame⟩ := storeIleaveCreate_factor hpos hlt hs (faces_eq halike) hile
    rw [Store.info_mk] at hagain hsame
    refine ⟨⟨{ info with wrapDst := wrapDst }, kids'⟩, ?_, ?_, halike⟩
    · rw [hstep hv, hkids', henc, Vectors.counts_append, Vectors.counts_append, Counts.add_assoc]
      simp only [Except.bind, hagain, Except.map]
    · obtain hnil | rfl := hsame
      · exact Or.inr ⟨hcls, hruns hnil, wrapDst, rfl⟩
      · exact Or.inl rfl
  · intro pre post t cur hv hdecode hsame
    rw [hstep hv] at hdecode
    obtain ⟨⟨kids', cur'⟩, hkids', hdecode⟩ := exceptBind_eq_ok.mp hdecode
    obtain ⟨t', ht', hpair⟩ := exceptMap_eq_ok.mp hdecode
    cases hpair
    rw [henc] at hv
    have hv' := hv.trans (surround_rest _ _ _ _)
    have hchildren : t.children = kids' := by
      obtain ⟨_, _, -, -, -, -, -, -, rfl⟩ := storeIleaveCreate_ok ht'
      rfl
    have hall := children_only h hv' hkids' (hchildren ▸ hsame.children)
    -- so the children have been read back, and the sizes can be compared
    obtain ⟨kids'', hkids'', halike⟩ := children_back h hall hv'
    obtain ⟨rfl, -⟩ := Prod.mk.inj (Except.ok.inj (hkids''.symm.trans hkids'))
    exact hread.mpr
      ⟨ileaveReadable_of_size hpos hlt hends hs (faces_eq halike) ht' hsame.info.size, hall⟩

theorem sum_nonneg_of_runs {runs : List StoreRun} (h : ∀ run ∈ runs, 0 ≤ run.length) :
    0 ≤ (runs.map (·.length)).sum := by
  apply sum_nonneg
  intro length hlength
  obtain ⟨run, hrun, rfl⟩ := mem_map.mp hlength
  exact h run hrun

theorem storeCreate_endBlock_nonneg {cls : StoreClass} {port blockSize : Nat} {flags : BitVec 32}
    {runs : List StoreRun} {info : StoreInfo} (hruns : ∀ run ∈ runs, 0 ≤ run.length)
    (h : storeCreate cls port flags blockSize runs 0 = .ok info) : 0 ≤ info.endBlock := by
  obtain rfl | hpos := Nat.eq_zero_or_pos blockSize
  · rw [storeCreate] at h
    split at h
    · cases h
    split at h
    · cases h
    · cases h
      exact le_rfl
  · obtain ⟨-, hend, -⟩ := storeCreate_derived hpos h
    rw [hend]
    exact sum_nonneg_of_runs hruns

theorem Built.endBlock_nonneg {s : Store} (h : Built s) : 0 ≤ s.info.endBlock := by
  induction h with
  | leaf hleaf _ hruns =>
    obtain ⟨port, flags, blockSize, runs, info, name, misc, hcreate, rfl⟩ := hleaf
    obtain ⟨-, -, -, -, -, -, rfl⟩ := storeCreate_ok hcreate
    have hend := storeCreate_endBlock_nonneg hruns hcreate
    exact hend
  | remap _ hruns hs _ =>
    obtain ⟨info, hcreate, rfl⟩ := storeRemapCreate_ok hs
    exact storeCreate_endBlock_nonneg hruns hcreate
  | concat _ hs ih =>
    obtain ⟨blockSize, info, name, -, hcreate, -, -, rfl⟩ := storeConcatCreate_ok hs
    apply storeCreate_endBlock_nonneg _ hcreate
    intro run hrun
    obtain ⟨kid, hkid, rfl⟩ := mem_map.mp hrun
    exact ih kid hkid
  | interleave _ hpos hlt hs ih =>
    obtain ⟨-, -, -, -, -, -, hfactor, -, -⟩ := storeIleaveCreate_facts hpos hlt hs
    rw [storeIleaveCreate_endBlock hs ih]
    exact Int.mul_nonneg (Int.natCast_nonneg _) hfactor.le

theorem ints_kid_le {kid : Store} {kids : List Store} (h : kid ∈ kids) :
    kid.encoding.ints.length ≤ (Store.encoding.kids kids).ints.length := by
  induction kids with
  | nil => cases h
  | cons first rest ih =>
    rw [Store.encoding.kids, Vectors.append, length_append]
    obtain rfl | h := mem_cons.mp h
    · exact Nat.le_add_right _ _
    · exact (ih h).trans (Nat.le_add_left _ _)

theorem kids_ints_lt {s : Store} (hcls : ∀ c, s.info.cls ≠ .leaf c) :
    (Store.encoding.kids s.children).ints.length < s.encoding.ints.length := by
  obtain ⟨info, kids⟩ := s
  rw [Store.encoding, Store.children_mk]
  cases hcase : info.cls with
  | leaf c => exact absurd hcase (hcls c)
  | remap =>
    simp only [Vectors.append, remapEncode, length_append, length_cons]
    omega
  | interleave =>
    simp only [Vectors.append, ileaveEncode, length_append, length_cons]
    omega
  | concat =>
    simp only [Vectors.append, concatEncode, length_append, length_cons]
    omega

theorem fuel_of_composite {s : Store} (hcls : ∀ c, s.info.cls ≠ .leaf c)
    (hfuel : s.encoding.ints.length ≤ fuel) :
    ∃ n, fuel = n + 1 ∧ ∀ kid ∈ s.children, kid.encoding.ints.length ≤ n := by
  have hlt := kids_ints_lt hcls
  refine ⟨fuel - 1, by omega, ?_⟩
  intro kid hkid
  have hle := ints_kid_le hkid
  omega

theorem Built.reads {s : Store} (h : Built s) (hfit : v.counts.Fit)
    (hfuel : s.encoding.ints.length ≤ fuel) : Reads v (storeDecodeFuel v fuel) s := by
  induction h generalizing fuel with
  | leaf hleaf htrip _ => exact reads_leaf hleaf htrip hfit hfuel
  | @remap source s runs flags hsource hruns hs ih =>
    obtain ⟨info, hcreate, hinfo⟩ := storeRemapCreate_ok hs
    have hcls : s.info.cls = .remap := by
      rw [hinfo]
      exact (storeCreate_ok hcreate).2.2.1
    obtain ⟨fuel, rfl, hkids⟩ := fuel_of_composite (by simp [hcls]) hfuel
    apply reads_remap hs
    apply ih
    apply hkids
    rw [hinfo]
    exact mem_singleton_self source
  | @concat kids s flags hkids hs ih =>
    obtain ⟨blockSize, info, name, -, hcreate, -, -, hinfo⟩ := storeConcatCreate_ok hs
    have hcls : s.info.cls = .concat := by
      rw [hinfo]
      exact (storeCreate_ok hcreate).2.2.1
    have hchildren : s.children = kids := by rw [hinfo, Store.children_mk]
    obtain ⟨fuel, rfl, hlen⟩ := fuel_of_composite (by simp [hcls]) hfuel
    rw [hchildren] at hlen
    exact reads_concat hs fun kid hkid => ih kid hkid (hlen kid hkid)
  | @interleave kids s interleave flags hkids hpos hlt hs ih =>
    obtain ⟨-, -, -, hcls, hchildren, -⟩ := storeIleaveCreate_facts hpos hlt hs
    obtain ⟨fuel, rfl, hlen⟩ := fuel_of_composite (by simp [hcls]) hfuel
    rw [hchildren] at hlen
    exact reads_interleave hpos hlt (fun kid hkid => (hkids kid hkid).endBlock_nonneg) hs
      fun kid hkid => ih kid hkid (hlen kid hkid)

/-- What has been encoded of a tree is decoded: a tree of the same shape, each store of which has
the same address space, so that the whole has the same size and its blocks are the same blocks of
the same leaves. -/
def TreeRoundTrips (enc : Vectors) (s : Store) : Prop :=
  ∃ t cur, storeDecode enc .zero = .ok (t, cur) ∧ s.Lift SameSpace t ∧ t.size = s.size ∧
    ∀ addr, t.translate addr = s.translate addr

/-- The interleave factor is encoded in blocks and decoded in bytes. -/
theorem composite_round_trip_iff {s : Store} {enc : StoreEnc} (h : Built s)
    (henc : storeEncode s = some enc) : TreeRoundTrips enc.written s ↔ s.Readable := by
  obtain ⟨hwritten, hfit⟩ := storeEncode_some henc
  rw [hwritten]
  have hself : s.encoding = surround .empty s.encoding .empty := by
    rw [surround, Vectors.append_empty, Vectors.empty_append]
  have hreads := h.reads hfit (Nat.le_add_right _ 1)
  constructor
  · rintro ⟨t, cur, hdecode, hsame, -⟩
    exact hreads.only .empty .empty t cur hself hdecode hsame
  · intro hread
    obtain ⟨t, hdecode, halike⟩ := hreads.back hread .empty .empty hself
    have hsame := halike.mono fun _ _ => Alike.sameSpace
    exact ⟨t, _, hdecode, hsame, hsame.info.size, translate_eq hsame⟩

theorem built_deviceStore (blocks : Int) (h : 0 ≤ blocks)
    (hcreate : storeCreate (.leaf .device) 1 0 512 [⟨0, blocks⟩] 0 =
      .ok (deviceStore blocks none []).info) : Built (deviceStore blocks none []) := by
  have hleaf : IsLeaf .device (deviceStore blocks none []) :=
    ⟨1, 0, 512, [⟨0, blocks⟩], (deviceStore blocks none []).info, none, [], hcreate, rfl⟩
  refine Built.leaf hleaf ?_ (by simpa [deviceStore] using h)
  refine ⟨_, storeStdLeafDecode_encode hleaf ?_ ?_, rfl, rfl, rfl, rfl, rfl⟩
  · exact ⟨show 1 < 2 ^ 32 by decide, show 6 < 2 ^ 32 by decide, show 2 < 2 ^ 32 by decide,
      show 0 < 2 ^ 32 by decide⟩
  · exact ⟨show 0 < 2 ^ 31 by decide, show 0 < 2 ^ 31 by decide, Or.inl rfl⟩

/-- Four blocks in the middle of a device. -/
def remappedDevice : Store :=
  ⟨{ cls := .remap
     port := 0
     flags := 0
     blockSize := 512
     runs := [⟨2, 4⟩]
     endBlock := 4
     wrapSrc := 4
     wrapDst := 0
     blocks := 4
     log2BlockSize := 9
     name := none
     misc := [] }, [deviceStore 8 none []]⟩

theorem composite_round_trip_remapped :
    ∃ enc, storeEncode remappedDevice = some enc ∧ TreeRoundTrips enc.written remappedDevice := by
  have hmade : storeRemapCreate (deviceStore 8 none []) [⟨2, 4⟩] 0 = .ok remappedDevice := rfl
  have hbuilt : Built remappedDevice :=
    Built.remap (built_deviceStore 8 (by decide) (by decide)) (by decide) hmade
  have henc : storeEncode remappedDevice =
      some ⟨remappedDevice.allocateEncoding .zero, remappedDevice.encoding⟩ := rfl
  refine ⟨_, henc, (composite_round_trip_iff hbuilt henc).mpr ⟨?_, ⟨?_, trivial⟩, trivial⟩⟩
  · intro h
    cases h
  · intro h
    cases h

/-- Two devices of 100 blocks with an interleave factor of two blocks. In bytes that would be less
than a block. -/
theorem interleaved_not_decoded :
    Built (twoStripes 100 100) ∧
      ∃ enc, storeEncode (twoStripes 100 100) = some enc ∧
        storeDecode enc.written .zero = .error (.error .inval) ∧
        ¬TreeRoundTrips enc.written (twoStripes 100 100) := by
  have hbuilt : Built (twoStripes 100 100) := by
    have hdevice := built_deviceStore 100 (by decide) (by decide)
    have hmade : storeIleaveCreate (twoDevices 100 100) 1024 0 = .ok (twoStripes 100 100) :=
      storeIleaveCreate_two (by decide) (by decide)
    refine Built.interleave ?_ (by decide) (by decide) hmade
    intro kid hkid
    obtain rfl | rfl : kid = deviceStore 100 none [] ∨ kid = deviceStore 100 none [] := by
      simpa [twoDevices] using hkid
    · exact hdevice
    · exact hdevice
  have hstop : storeDecode (twoStripes 100 100).encoding .zero = .error (.error .inval) := rfl
  have henc : storeEncode (twoStripes 100 100) =
      some ⟨(twoStripes 100 100).allocateEncoding .zero, (twoStripes 100 100).encoding⟩ := rfl
  refine ⟨hbuilt, _, henc, hstop, ?_⟩
  rintro ⟨t, cur, hdecode, -⟩
  rw [hstop] at hdecode
  cases hdecode

end Hurd.Libstore
