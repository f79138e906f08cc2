import Hurd.Framework.Outcome
import Hurd.Libstore.Interleave

/-!
# Stores that are built again

The composite stores that the constructors of `remap.c` and `stripe.c` make, and what these make of
the same children when they are given the flags of a store that has been made before.
-/

namespace Hurd.Libstore

open List

variable {kids kids' : List Store} {flags : BitVec 32} {s : Store}

theorem storeSetChildren_ok {info : StoreInfo} (h : storeSetChildren info kids = .ok s) :
    8 * kids.length < 2 ^ 32 ∧ s = ⟨info, kids⟩ := by
  rw [storeSetChildren] at h
  split at h
  · cases h
  · cases h
    exact ⟨by omega, rfl⟩

theorem storeSetChildren_eq (info : StoreInfo) (h : 8 * kids.length < 2 ^ 32) :
    storeSetChildren info kids = .ok ⟨info, kids⟩ := by
  rw [storeSetChildren, if_neg (by omega)]

theorem storeRemapCreate_ok {source : Store} {runs : List StoreRun}
    (h : storeRemapCreate source runs flags = .ok s) :
    ∃ info, storeCreate .remap 0 (flags ||| source.info.flags) source.info.blockSize runs 0 =
      .ok info ∧ s = ⟨info, [source]⟩ := by
  obtain ⟨info, hcreate, hs⟩ := exceptBind_eq_ok.mp h
  exact ⟨info, hcreate, (storeSetChildren_ok hs).2⟩

theorem storeConcatCreate_ok (h : storeConcatCreate kids flags = .ok s) :
    ∃ blockSize info name, commonBlockSize kids = .ok blockSize ∧
      storeCreate .concat 0 (flags ||| commonFlags kids) blockSize
        (kids.map fun kid => ⟨0, kid.info.endBlock⟩) 0 = .ok info ∧
      8 * kids.length < 2 ^ 32 ∧ concatName kids = .ok name ∧
      s = ⟨{ info with name := name }, kids⟩ := by
  obtain ⟨blockSize, hsize, h⟩ := exceptBind_eq_ok.mp h
  obtain ⟨info, hcreate, h⟩ := exceptBind_eq_ok.mp h
  obtain ⟨t, ht, h⟩ := exceptBind_eq_ok.mp h
  obtain ⟨hlen, rfl⟩ := storeSetChildren_ok ht
  split at h
  · next name hname =>
      cases h
      exact ⟨blockSize, info, name, hsize, hcreate, hlen, hname, rfl⟩
  · cases h

def ileaveBlocks (interleave : Int) (blockSize : Nat) : Int :=
  ofSizeT (toSizeT interleave / blockSize)

theorem storeIleaveCreate_ok {interleave : Int}
    (h : storeIleaveCreate kids interleave flags = .ok s) :
    ∃ blockSize info, commonBlockSize kids = .ok blockSize ∧ blockSize ≠ 0 ∧
      blockSize ≤ toSizeT interleave ∧ toSizeT interleave % blockSize = 0 ∧
      storeCreate .interleave 0 (commonFlags kids ||| flags) blockSize
        (kids.map fun _ => ⟨0, ileaveBlocks interleave blockSize⟩)
        (minEnd (kids.map (stripeEnd blockSize))) = .ok info ∧
      8 * kids.length < 2 ^ 32 ∧
      s = ⟨{ info with wrapDst := ileaveBlocks interleave blockSize }, kids⟩ := by
  obtain ⟨blockSize, hsize, h⟩ := exceptBind_eq_ok.mp h
  dsimp only at h
  split at h
  · cases h
  next hzero =>
  split at h
  · cases h
  next hfactor =>
  rw [not_or, not_not, Nat.not_lt] at hfactor
  obtain ⟨info, hcreate, h⟩ := exceptBind_eq_ok.mp h
  obtain ⟨hlen, rfl⟩ := storeSetChildren_ok h
  exact ⟨blockSize, info, hsize, hzero, hfactor.1, hfactor.2, hcreate, hlen, rfl⟩

theorem storeIleaveCreate_eq {interleave : Int} {blockSize : Nat} {info : StoreInfo}
    (hsize : commonBlockSize kids = .ok blockSize) (hzero : blockSize ≠ 0)
    (hle : blockSize ≤ toSizeT interleave) (hmod : toSizeT interleave % blockSize = 0)
    (hcreate : storeCreate .interleave 0 (commonFlags kids ||| flags) blockSize
      (kids.map fun _ => ⟨0, ileaveBlocks interleave blockSize⟩)
      (minEnd (kids.map (stripeEnd blockSize))) = .ok info)
    (hlen : 8 * kids.length < 2 ^ 32) :
    storeIleaveCreate kids interleave flags =
      .ok ⟨{ info with wrapDst := ileaveBlocks interleave blockSize }, kids⟩ := by
  rw [storeIleaveCreate]
  apply exceptBind_eq_ok.mpr
  refine ⟨blockSize, hsize, ?_⟩
  dsimp only
  rw [if_neg hzero, if_neg (by omega)]
  exact exceptBind_eq_ok.mpr ⟨info, hcreate, storeSetChildren_eq _ hlen⟩

/-- What other stores take from a store. They do not use `wrap_dst`. -/
def Store.face (s : Store) : StoreInfo := { s.info with wrapDst := 0 }

theorem commonBlockSize_face (kids : List Store) : commonBlockSize kids =
    (kids.map Store.face).foldlM (fun blockSize info => lcm blockSize info.blockSize) 1 := by
  rw [foldlM_map]
  rfl

theorem commonFlags_face (kids : List Store) : commonFlags kids =
    (kids.map Store.face).foldl (fun flags info => flags &&& info.flags) storeBackendFlags := by
  rw [foldl_map]
  rfl

theorem storeChildrenName_congr (h : kids'.map Store.face = kids.map Store.face) :
    storeChildrenName kids' = storeChildrenName kids := by
  have hempty : kids'.isEmpty = kids.isEmpty := by
    rw [← isEmpty_map (f := Store.face), h, isEmpty_map]
  have hnames : ∀ l : List Store,
      (l.mapM fun kid => kid.info.name.map fun name => (kid.info.cls, name)) =
        (l.map Store.face).mapM fun info => info.name.map fun name => (info.cls, name) := by
    intro l
    rw [mapM_map]
    rfl
  rw [storeChildrenName, storeChildrenName, hempty, hnames kids', h, ← hnames kids]

theorem concatName_congr (h : kids'.map Store.face = kids.map Store.face) :
    concatName kids' = concatName kids := by
  have hname := storeChildrenName_congr h
  unfold concatName
  split <;> split <;> simp_all

theorem length_of_face (h : kids'.map Store.face = kids.map Store.face) :
    kids'.length = kids.length := by
  have hlen := congrArg List.length h
  rwa [length_map, length_map] at hlen

theorem map_of_face {β : Type} {f : Store → β} (g : StoreInfo → β) (hg : ∀ kid, f kid = g kid.face)
    (h : kids'.map Store.face = kids.map Store.face) : kids'.map f = kids.map f := by
  have hmap : ∀ l : List Store, l.map f = (l.map Store.face).map g := by
    intro l
    rw [map_map]
    exact map_congr_left fun kid _ => hg kid
  rw [hmap, h, ← hmap]

theorem storeRemapCreate_again {source source' : Store} {runs : List StoreRun}
    (hs : storeRemapCreate source runs flags = .ok s) (hface : source'.face = source.face) :
    storeRemapCreate source' runs s.info.flags = .ok ⟨s.info, [source']⟩ := by
  obtain ⟨info, hcreate, rfl⟩ := storeRemapCreate_ok hs
  have hflags : info.flags = flags ||| source.info.flags := (storeCreate_ok hcreate).2.2.2.2.1
  have hsource : source'.info.flags = source.info.flags :=
    show source'.face.flags = source.face.flags by rw [hface]
  have hsize : source'.info.blockSize = source.info.blockSize :=
    show source'.face.blockSize = source.face.blockSize by rw [hface]
  apply exceptBind_eq_ok.mpr
  refine ⟨info, ?_, storeSetChildren_eq _ (by simp)⟩
  rw [hsize, hsource]
  rw [Store.info_mk, hflags, BitVec.or_assoc, BitVec.or_self]
  exact hcreate

theorem storeConcatCreate_again (hs : storeConcatCreate kids flags = .ok s)
    (hface : kids'.map Store.face = kids.map Store.face) :
    storeConcatCreate kids' s.info.flags = .ok ⟨s.info, kids'⟩ := by
  obtain ⟨blockSize, info, name, hsize, hcreate, hlen, hname, rfl⟩ := storeConcatCreate_ok hs
  have hflags : info.flags = flags ||| commonFlags kids := (storeCreate_ok hcreate).2.2.2.2.1
  have hsize' : commonBlockSize kids' = .ok blockSize := by
    rw [commonBlockSize_face, hface, ← commonBlockSize_face, hsize]
  have hflags' : commonFlags kids' = commonFlags kids := by
    rw [commonFlags_face, hface, ← commonFlags_face]
  have hruns : (kids'.map fun kid => (⟨0, kid.info.endBlock⟩ : StoreRun)) =
      kids.map fun kid => ⟨0, kid.info.endBlock⟩ :=
    map_of_face (fun info => ⟨0, info.endBlock⟩) (fun _ => rfl) hface
  have hlen' : 8 * kids'.length < 2 ^ 32 := by rwa [length_of_face hface]
  rw [storeConcatCreate]
  apply exceptBind_eq_ok.mpr
  refine ⟨blockSize, hsize', ?_⟩
  apply exceptBind_eq_ok.mpr
  refine ⟨info, ?_, ?_⟩
  · simp only [Store.info_mk, hflags, hflags', hruns]
    rw [BitVec.or_assoc, BitVec.or_self]
    exact hcreate
  · apply exceptBind_eq_ok.mpr
    refine ⟨⟨info, kids'⟩, storeSetChildren_eq info hlen', ?_⟩
    rw [concatName_congr hface, hname]
    rfl

theorem storeIleaveCreate_again {interleave factor : Int} {blockSize : Nat}
    (hs : storeIleaveCreate kids interleave flags = .ok s)
    (hface : kids'.map Store.face = kids.map Store.face)
    (hsize : commonBlockSize kids = .ok blockSize) (hle : blockSize ≤ toSizeT factor)
    (hmod : toSizeT factor % blockSize = 0)
    (hsame : kids = [] ∨ ileaveBlocks factor blockSize = s.info.wrapDst) :
    storeIleaveCreate kids' factor s.info.flags =
      .ok ⟨{ s.info with wrapDst := ileaveBlocks factor blockSize }, kids'⟩ := by
  obtain ⟨size, info, hsize', hzero, -, -, hcreate, hlen, rfl⟩ := storeIleaveCreate_ok hs
  obtain rfl : blockSize = size := Except.ok.inj (hsize.symm.trans hsize')
  have hflags : info.flags = commonFlags kids ||| flags := (storeCreate_ok hcreate).2.2.2.2.1
  have hkids : commonBlockSize kids' = .ok blockSize := by
    rw [commonBlockSize_face, hface, ← commonBlockSize_face, hsize]
  have hflags' : commonFlags kids' = commonFlags kids := by
    rw [commonFlags_face, hface, ← commonFlags_face]
  have hends : kids'.map (stripeEnd blockSize) = kids.map (stripeEnd blockSize) :=
    map_of_face (fun info => stripeEnd blockSize ⟨info, []⟩) (fun _ => rfl) hface
  have hruns : (kids'.map fun _ => (⟨0, ileaveBlocks factor blockSize⟩ : StoreRun)) =
      kids.map fun _ => ⟨0, ileaveBlocks interleave blockSize⟩ := by
    rw [map_const', map_const', length_of_face hface]
    obtain rfl | hsame := hsame
    · rw [length_nil, replicate_zero, replicate_zero]
    · rw [hsame, Store.info_mk]
  have hlen' : 8 * kids'.length < 2 ^ 32 := by rwa [length_of_face hface]
  have hcreate' : storeCreate .interleave 0 (commonFlags kids' ||| info.flags) blockSize
      (kids'.map fun _ => ⟨0, ileaveBlocks factor blockSize⟩)
      (minEnd (kids'.map (stripeEnd blockSize))) = .ok info := by
    rw [hflags', hends, hruns, hflags, ← BitVec.or_assoc, BitVec.or_self]
    exact hcreate
  have hmade := storeIleaveCreate_eq hkids hzero hle hmod hcreate' hlen'
  rw [Store.info_mk]
  exact hmade

theorem lcm_dvd {p q r : Nat} (h : lcm p q = .ok r) : p ∣ r ∧ q ∣ r := by
  rw [lcm] at h
  split at h
  · cases h
  · cases h
    refine ⟨?_, Nat.dvd_mul_left q _⟩
    obtain ⟨k, hk⟩ := Nat.gcd_dvd_right p q
    have hp : p / Nat.gcd p q * Nat.gcd p q = p := Nat.div_mul_cancel (Nat.gcd_dvd_left p q)
    refine ⟨k, ?_⟩
    calc p / Nat.gcd p q * q = p / Nat.gcd p q * (Nat.gcd p q * k) := by rw [← hk]
      _ = p * k := by rw [← Nat.mul_assoc, hp]

theorem commonBlockSize_dvd {blockSize : Nat} (h : commonBlockSize kids = .ok blockSize) :
    ∀ kid ∈ kids, kid.info.blockSize ∣ blockSize := by
  have hfold : ∀ (l : List Store) (p : Nat),
      l.foldlM (fun size store => lcm size store.info.blockSize) p = .ok blockSize →
        p ∣ blockSize ∧ ∀ kid ∈ l, kid.info.blockSize ∣ blockSize := by
    intro l
    induction l with
    | nil =>
      intro p hp
      cases hp
      exact ⟨dvd_rfl, fun _ hkid => absurd hkid not_mem_nil⟩
    | cons kid l ih =>
      intro p hp
      rw [foldlM_cons] at hp
      obtain ⟨r, hr, hrest⟩ := exceptBind_eq_ok.mp hp
      obtain ⟨hdvd, hall⟩ := ih r hrest
      obtain ⟨hleft, hright⟩ := lcm_dvd hr
      refine ⟨hleft.trans hdvd, ?_⟩
      intro k hk
      obtain rfl | hk := mem_cons.mp hk
      · exact hright.trans hdvd
      · exact hall k hk
  exact (hfold kids 1 h).2

theorem stripeEnd_nonneg {kid : Store} {blockSize : Nat} (hdvd : kid.info.blockSize ∣ blockSize)
    (hzero : blockSize ≠ 0) (hend : 0 ≤ kid.info.endBlock) : 0 ≤ stripeEnd blockSize kid := by
  rw [stripeEnd]
  split
  · next hne =>
      obtain ⟨k, rfl⟩ := hdvd
      have hpos : 0 < kid.info.blockSize := Nat.pos_of_ne_zero (left_ne_zero_of_mul hzero)
      have hk : 2 ≤ k := by
        have hone : k ≠ 1 := by
          rintro rfl
          exact hne (Nat.mul_one _).symm
        have hk0 : k ≠ 0 := right_ne_zero_of_mul hzero
        omega
      have hlt : toSizeT kid.info.endBlock < 2 ^ 64 := by
        rw [toSizeT]
        omega
      have hhalf : toSizeT kid.info.endBlock / k < 2 ^ 63 := by
        apply Nat.div_lt_of_lt_mul
        omega
      rw [Nat.mul_div_cancel_left _ hpos, ofSizeT_of_lt hhalf]
      exact Int.natCast_nonneg _
  · exact hend

theorem storeIleaveCreate_endBlock {interleave : Int}
    (hs : storeIleaveCreate kids interleave flags = .ok s)
    (hends : ∀ kid ∈ kids, 0 ≤ kid.info.endBlock) :
    s.info.endBlock = kids.length * s.info.wrapDst := by
  obtain ⟨blockSize, info, hsize, hzero, -, -, hcreate, -, rfl⟩ := storeIleaveCreate_ok hs
  have hmin : minEnd (kids.map (stripeEnd blockSize)) = 0 := by
    apply minEnd_eq_zero
    intro e he
    obtain ⟨kid, hkid, rfl⟩ := mem_map.mp he
    exact stripeEnd_nonneg (commonBlockSize_dvd hsize kid hkid) hzero (hends kid hkid)
  rw [hmin] at hcreate
  obtain ⟨-, hend, -⟩ := storeCreate_derived (Nat.pos_of_ne_zero hzero) hcreate
  rw [Store.info_mk, hend, map_map]
  simp [Function.comp_def]

end Hurd.Libstore
