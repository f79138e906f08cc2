import Hurd.Fatfs.Fat
import Hurd.Framework.ByteMemory

/-!
# The file allocation table on disk

An entry of the table has 12, 16 or 28 bits. Entries of 12 bits are packed: two of them share a
byte, and each is read and written through the 16-bit word that begins in its first byte.
-/

namespace Hurd

open Function

theorem and_shiftLeft (x m k : Nat) : x &&& (m <<< k) = ((x >>> k) &&& m) <<< k := by
  apply Nat.eq_of_testBit_eq
  intro i
  simp only [Nat.testBit_and, Nat.testBit_shiftLeft, Nat.testBit_shiftRight]
  by_cases h : k ≤ i
  · rw [Nat.add_sub_cancel' h]
    simp [h]
  · simp [h]

theorem and_fff (x : Nat) : x &&& 0xfff = x % 4096 := Nat.and_two_pow_sub_one_eq_mod x 12

theorem low_or_shifted (data next : Nat) :
    (data &&& 0xf) ||| ((next &&& 0xfff) <<< 4) = data % 16 + next % 4096 * 16 := by
  have hdata : data &&& 0xf = data % 16 := Nat.and_two_pow_sub_one_eq_mod data 4
  have hlt : data % 16 < 2 ^ 4 := Nat.mod_lt _ (Nat.succ_pos _)
  rw [hdata, and_fff, Nat.or_comm, ← Nat.shiftLeft_add_eq_or_of_lt hlt, Nat.shiftLeft_eq,
    Nat.add_comm]

theorem high_or_low {data : Nat} (next : Nat) (h : data < 65536) :
    (data &&& 0xf000) ||| (next &&& 0xfff) = data / 4096 * 4096 + next % 4096 := by
  have hdata : data &&& 0xf000 = (data / 4096) <<< 12 := by
    have hmask := and_shiftLeft data 15 12
    have hmod := Nat.and_two_pow_sub_one_eq_mod (data >>> 12) 4
    have hlt : data / 4096 < 16 := by omega
    rw [Nat.shiftRight_eq_div_pow] at hmask hmod
    exact hmask.trans (congrArg (· <<< 12) (hmod.trans (Nat.mod_eq_of_lt hlt)))
  have hlt : next % 4096 < 2 ^ 12 := Nat.mod_lt _ (Nat.succ_pos _)
  rw [hdata, and_fff, ← Nat.shiftLeft_add_eq_or_of_lt hlt, Nat.shiftLeft_eq]

namespace Fatfs

def fatBad : Nat := 0x0ffffff7

/-- `FAT12_BAD_CLUSTER`, `FAT16_BAD_CLUSTER` and `FAT32_BAD_CLUSTER` -/
def FatType.bad : FatType → Nat
  | .fat12 => 0x0ff7
  | .fat16 => 0xfff7
  | .fat32 => 0x0ffffff7

/-- `FAT12_EOC`, `FAT16_EOC` and `FAT32_EOC` -/
def FatType.eoc : FatType → Nat
  | .fat12 => 0x0ff8
  | .fat16 => 0xfff8
  | .fat32 => 0x0ffffff8

/-- The special values in `fat_write_next_cluster`. -/
def FatType.encode (t : FatType) (nextCluster : Nat) : Nat :=
  if nextCluster = fatBad then t.bad
  else if nextCluster = fatEoc then t.eoc
  else nextCluster

/-- The special values in `fat_get_next_cluster`. -/
def FatType.decode (t : FatType) (entry : Nat) : Nat :=
  if entry = t.bad then fatBad
  else if t.eoc ≤ entry then fatEoc
  else entry

def FatType.entryOffset : FatType → Nat → Nat
  | .fat12, cluster => cluster * 3 / 2
  | .fat16, cluster => cluster * 2
  | .fat32, cluster => cluster * 4

def FatType.readEntry (t : FatType) (m : ByteMemory) (cluster : Nat) : Nat :=
  match t with
  | .fat12 =>
      let word := m.read 2 (FatType.fat12.entryOffset cluster)
      if cluster % 2 = 1 then word >>> 4 else word &&& 0xfff
  | .fat16 => m.read 2 (FatType.fat16.entryOffset cluster)
  | .fat32 => m.read 4 (FatType.fat32.entryOffset cluster) &&& 0x0fffffff

def FatType.writeEntry (t : FatType) (m : ByteMemory) (cluster next : Nat) : ByteMemory :=
  match t with
  | .fat12 =>
      let data := m.read 2 (FatType.fat12.entryOffset cluster)
      let data :=
        if cluster % 2 = 1 then (data &&& 0xf) ||| ((next &&& 0xfff) <<< 4)
        else (data &&& 0xf000) ||| (next &&& 0xfff)
      m.write 2 (FatType.fat12.entryOffset cluster) data
  | .fat16 => m.write 2 (FatType.fat16.entryOffset cluster) next
  | .fat32 => m.write 4 (FatType.fat32.entryOffset cluster) (next &&& 0x0fffffff)

/-- The number of different values of an entry. -/
def FatType.values : FatType → Nat
  | .fat12 => 4096
  | .fat16 => 65536
  | .fat32 => 0x10000000

section Packed

/-- Half a byte, where each byte has the lower one first. -/
def nibble (m : ByteMemory) (i : Nat) : Nat := (m (i / 2)).toNat / 16 ^ (i % 2) % 16

variable {m : ByteMemory} {c v : Nat}

theorem read_two (m : ByteMemory) (a : Nat) :
    m.read 2 a = (m a).toNat + 256 * (m (a + 1)).toNat := by
  simp [ByteMemory.read]

theorem nibble_even (m : ByteMemory) (k : Nat) : nibble m (2 * k) = (m k).toNat % 16 := by
  have hdiv : 2 * k / 2 = k := by omega
  have hmod : 2 * k % 2 = 0 := by omega
  rw [nibble, hdiv, hmod, Nat.pow_zero, Nat.div_one]

theorem nibble_odd (m : ByteMemory) (k : Nat) : nibble m (2 * k + 1) = (m k).toNat / 16 := by
  have hdiv : (2 * k + 1) / 2 = k := by omega
  have hmod : (2 * k + 1) % 2 = 1 := by omega
  have hbyte := (m k).toNat_lt
  rw [nibble, hdiv, hmod, Nat.pow_one]
  omega

theorem nibble_congr {m' : ByteMemory} {i : Nat} (h : m' (i / 2) = m (i / 2)) :
    nibble m' i = nibble m i := by
  rw [nibble, nibble, h]

theorem exists_half (c : Nat) : ∃ k, c = 2 * k ∨ c = 2 * k + 1 := ⟨c / 2, by omega⟩

theorem readEntry_fat12 (m : ByteMemory) (c : Nat) :
    FatType.fat12.readEntry m c =
      nibble m (3 * c) + 16 * nibble m (3 * c + 1) + 256 * nibble m (3 * c + 2) := by
  obtain ⟨k, hc | hc⟩ := exists_half c
  · have hmod : ¬ c % 2 = 1 := by omega
    have hoffset : FatType.fat12.entryOffset c = 3 * k := by
      rw [FatType.entryOffset]
      omega
    have h0 : 3 * c = 2 * (3 * k) := by omega
    have h2 : 2 * (3 * k) + 2 = 2 * (3 * k + 1) := by omega
    have hbyte := (m (3 * k)).toNat_lt
    simp only [FatType.readEntry, if_neg hmod, hoffset]
    rw [read_two, and_fff, h0, h2, nibble_even, nibble_odd, nibble_even]
    omega
  · have hmod : c % 2 = 1 := by omega
    have hoffset : FatType.fat12.entryOffset c = 3 * k + 1 := by
      rw [FatType.entryOffset]
      omega
    have h0 : 3 * c = 2 * (3 * k + 1) + 1 := by omega
    have h1 : 2 * (3 * k + 1) + 1 + 1 = 2 * (3 * k + 1 + 1) := by omega
    have h2 : 2 * (3 * k + 1) + 1 + 2 = 2 * (3 * k + 1 + 1) + 1 := by omega
    simp only [FatType.readEntry, if_pos hmod, hoffset]
    rw [read_two, Nat.shiftRight_eq_div_pow, h0, h1, h2, nibble_odd, nibble_even, nibble_odd]
    omega

theorem nibble_word (m : ByteMemory) (a : Nat) :
    nibble m (2 * a) = m.read 2 a % 16 ∧ nibble m (2 * a + 1) = m.read 2 a / 16 % 16 ∧
      nibble m (2 * a + 2) = m.read 2 a / 256 % 16 ∧ nibble m (2 * a + 3) = m.read 2 a / 4096 := by
  have hlow := (m a).toNat_lt
  have hhigh := (m (a + 1)).toNat_lt
  have h2 : 2 * a + 2 = 2 * (a + 1) := by omega
  have h3 : 2 * a + 3 = 2 * (a + 1) + 1 := by omega
  rw [read_two, h2, h3, nibble_even, nibble_odd, nibble_even, nibble_odd]
  omega

theorem nibble_write_of_ne {a w i : Nat} (h : i < 2 * a ∨ 2 * a + 4 ≤ i) :
    nibble (m.write 2 a w) i = nibble m i :=
  nibble_congr (ByteMemory.write_changed _ (by omega))

theorem writeEntry_fat12 (m : ByteMemory) (c v : Nat) :
    ∃ w < 65536, FatType.fat12.writeEntry m c v = m.write 2 (c * 3 / 2) w ∧
      (c % 2 = 0 → w % 4096 = v % 4096 ∧ w / 4096 = m.read 2 (c * 3 / 2) / 4096) ∧
      (c % 2 = 1 → w / 16 = v % 4096 ∧ w % 16 = m.read 2 (c * 3 / 2) % 16) := by
  have hdata : m.read 2 (c * 3 / 2) < 65536 := ByteMemory.read_lt 2 m _
  by_cases hmod : c % 2 = 1
  · refine ⟨m.read 2 (c * 3 / 2) % 16 + v % 4096 * 16, by omega, ?_, by omega, by omega⟩
    simp only [FatType.writeEntry, FatType.entryOffset, if_pos hmod, low_or_shifted]
  · refine ⟨m.read 2 (c * 3 / 2) / 4096 * 4096 + v % 4096, by omega, ?_, by omega, by omega⟩
    simp only [FatType.writeEntry, FatType.entryOffset, if_neg hmod, high_or_low v hdata]

theorem nibble_writeEntry {i : Nat} (h : i < 3 * c ∨ 3 * c + 3 ≤ i) :
    nibble (FatType.fat12.writeEntry m c v) i = nibble m i := by
  obtain ⟨w, hlt, hwrite, heven, hodd⟩ := writeEntry_fat12 m c v
  obtain ⟨hold0, -, -, hold3⟩ := nibble_word m (c * 3 / 2)
  obtain ⟨hnew0, -, -, hnew3⟩ := nibble_word (m.write 2 (c * 3 / 2) w) (c * 3 / 2)
  have hread : (m.write 2 (c * 3 / 2) w).read 2 (c * 3 / 2) = w := ByteMemory.read_write_of_lt hlt
  rw [hread] at hnew0 hnew3
  rw [hwrite]
  by_cases hout : i < 2 * (c * 3 / 2) ∨ 2 * (c * 3 / 2) + 4 ≤ i
  · exact nibble_write_of_ne hout
  · -- the fourth half byte of the word is the neighbour's
    by_cases hmod : c % 2 = 1
    · have hi : i = 2 * (c * 3 / 2) := by omega
      rw [hi, hnew0, hold0, (hodd hmod).2]
    · have hi : i = 2 * (c * 3 / 2) + 3 := by omega
      rw [hi, hnew3, hold3, (heven (by omega)).2]

end Packed

theorem readEntry_writeEntry (t : FatType) (m : ByteMemory) (c v : Nat) :
    t.readEntry (t.writeEntry m c v) c = v % t.values := by
  cases t with
  | fat12 =>
    obtain ⟨w, hlt, hwrite, heven, hodd⟩ := writeEntry_fat12 m c v
    have hread : (m.write 2 (c * 3 / 2) w).read 2 (c * 3 / 2) = w :=
      ByteMemory.read_write_of_lt hlt
    rw [hwrite]
    by_cases hmod : c % 2 = 1
    · simp only [FatType.readEntry, FatType.entryOffset, if_pos hmod, hread]
      exact (Nat.shiftRight_eq_div_pow w 4).trans (hodd hmod).1
    · simp only [FatType.readEntry, FatType.entryOffset, if_neg hmod, hread]
      exact (and_fff w).trans (heven (by omega)).1
  | fat16 => exact ByteMemory.read_write 2 m _ v
  | fat32 =>
    have hmask : ∀ x, x &&& 0x0fffffff = x % 0x10000000 :=
      fun x => Nat.and_two_pow_sub_one_eq_mod x 28
    simp only [FatType.readEntry, FatType.writeEntry]
    rw [ByteMemory.read_write, hmask, hmask]
    change v % 0x10000000 % 0x100000000 % 0x10000000 = v % 0x10000000
    omega

theorem readEntry_writeEntry_of_ne (t : FatType) (m : ByteMemory) {c d : Nat} (v : Nat)
    (hd : d ≠ c) : t.readEntry (t.writeEntry m c v) d = t.readEntry m d := by
  cases t with
  | fat12 =>
    have hout : ∀ j < 3, nibble (FatType.fat12.writeEntry m c v) (3 * d + j) =
        nibble m (3 * d + j) := fun j hj => nibble_writeEntry (by omega)
    rw [readEntry_fat12, readEntry_fat12, hout 1 (by omega), hout 2 (by omega)]
    have h0 := hout 0 (by omega)
    rw [Nat.add_zero] at h0
    rw [h0]
  | fat16 =>
    have hchanged : ByteMemory.Changed (c * 2) 2 m (FatType.fat16.writeEntry m c v) :=
      ByteMemory.write_changed
    have hcopied : ByteMemory.Copied 2 m (d * 2) (FatType.fat16.writeEntry m c v) (d * 2) :=
      hchanged.copied (by omega)
    exact ByteMemory.read_copied hcopied
  | fat32 =>
    have hchanged : ByteMemory.Changed (c * 4) 4 m (FatType.fat32.writeEntry m c v) :=
      ByteMemory.write_changed
    have hcopied : ByteMemory.Copied 4 m (d * 4) (FatType.fat32.writeEntry m c v) (d * 4) :=
      hchanged.copied (by omega)
    exact congrArg (· &&& 0x0fffffff) (ByteMemory.read_copied hcopied)

theorem FatType.special (t : FatType) :
    t.bad < t.eoc ∧ t.eoc < t.values ∧ t.bad ≤ fatBad ∧ t.eoc ≤ fatEoc := by
  cases t <;> decide

theorem FatType.decode_encode (t : FatType) {v : Nat}
    (hv : v < t.bad ∨ v = fatBad ∨ v = fatEoc) : t.decode (t.encode v % t.values) = v := by
  obtain ⟨hbad, heoc, hbad', heoc'⟩ := t.special
  have hne : fatEoc ≠ fatBad := by decide
  rcases hv with hv | rfl | rfl
  · have hencode : t.encode v = v := by
      rw [FatType.encode, if_neg (by omega), if_neg (by omega)]
    rw [hencode, Nat.mod_eq_of_lt (by omega), FatType.decode, if_neg (by omega),
      if_neg (by omega)]
  · have hencode : t.encode fatBad = t.bad := if_pos rfl
    rw [hencode, Nat.mod_eq_of_lt (by omega), FatType.decode, if_pos rfl]
  · have hencode : t.encode fatEoc = t.eoc := by rw [FatType.encode, if_neg hne, if_pos rfl]
    rw [hencode, Nat.mod_eq_of_lt heoc, FatType.decode, if_neg (by omega),
      if_pos (Nat.le_refl _)]

/-- `fat_type`, `nr_of_clusters` and `fat_image` -/
structure FatImage where
  type : FatType
  nrOfClusters : Nat
  bytes : ByteMemory

namespace FatImage

/-- What `fat_write_next_cluster` and `fat_get_next_cluster` assert of a cluster number. -/
def Asserted (f : FatImage) (cluster : Nat) : Prop :=
  2 ≤ cluster ∧ cluster < (f.nrOfClusters + 2) % 2 ^ 64

instance (f : FatImage) (cluster : Nat) : Decidable (f.Asserted cluster) :=
  inferInstanceAs (Decidable (_ ∧ _))

def writeNextCluster (f : FatImage) (cluster nextCluster : Nat) : Option FatImage :=
  if f.Asserted cluster then
    some { f with bytes := f.type.writeEntry f.bytes cluster (f.type.encode nextCluster) }
  else none

def getNextCluster (f : FatImage) (cluster : Nat) : Option Nat :=
  if f.Asserted cluster then some (f.type.decode (f.type.readEntry f.bytes cluster)) else none

/-- A cluster number: the functions take it, and an entry can hold it as what it is. -/
def Valid (f : FatImage) (cluster : Nat) : Prop := f.Asserted cluster ∧ cluster < f.type.bad

/-- A value that the entries can represent. -/
def Representable (f : FatImage) (v : Nat) : Prop :=
  v = fatFree ∨ f.Valid v ∨ v = fatBad ∨ v = fatEoc

variable {f : FatImage} {c v : Nat}

theorem Representable.encoded (h : f.Representable v) : v < f.type.bad ∨ v = fatBad ∨ v = fatEoc := by
  rcases h with rfl | h | h
  · left
    cases f.type <;> decide
  · exact .inl h.2
  · exact .inr h

theorem writeNextCluster_spec (hc : f.Asserted c)
    (hv : v < f.type.bad ∨ v = fatBad ∨ v = fatEoc) :
    ∃ f', f.writeNextCluster c v = some f' ∧ f'.type = f.type ∧
      f'.nrOfClusters = f.nrOfClusters ∧ f'.getNextCluster c = some v ∧
      ∀ d, d ≠ c → f'.getNextCluster d = f.getNextCluster d := by
  refine ⟨_, if_pos hc, rfl, rfl, ?_, ?_⟩
  · have hread : f.type.decode (f.type.readEntry
        (f.type.writeEntry f.bytes c (f.type.encode v)) c) = v := by
      rw [readEntry_writeEntry]
      exact f.type.decode_encode hv
    exact (if_pos hc).trans (congrArg some hread)
  · intro d hne
    have hread := readEntry_writeEntry_of_ne f.type f.bytes (f.type.encode v) hne
    by_cases hd : f.Asserted d
    · have hdecode := congrArg (fun x => some (f.type.decode x)) hread
      exact (if_pos hd).trans (hdecode.trans (if_pos hd).symm)
    · exact (if_neg hd).trans (if_neg hd).symm

/-- A written entry reads back, and every other entry is as it was. -/
theorem write_get_next (hc : f.Valid c) (hv : f.Representable v) :
    ∃ f', f.writeNextCluster c v = some f' ∧ f'.getNextCluster c = some v ∧
      ∀ d, f.Valid d → d ≠ c → f'.getNextCluster d = f.getNextCluster d := by
  obtain ⟨f', hwrite, -, -, hread, hother⟩ := writeNextCluster_spec hc.1 hv.encoded
  exact ⟨f', hwrite, hread, fun d _ hne => hother d hne⟩

/-- Eight clusters in a table of 12-bit entries that are all free: cluster 3 shares a byte with
cluster 2, which is to be the end of a chain. -/
def blankImage : FatImage := ⟨.fat12, 8, ⟨fun _ => 0⟩⟩

theorem blankImage_valid (hc : 2 ≤ c ∧ c < 10) : blankImage.Valid c := by
  refine ⟨hc, ?_⟩
  change c < 0xff7
  omega

theorem write_get_next_blank :
    ∃ f', blankImage.writeNextCluster 2 fatEoc = some f' ∧ f'.getNextCluster 2 = some fatEoc ∧
      ∀ d, blankImage.Valid d → d ≠ 2 → f'.getNextCluster d = blankImage.getNextCluster d :=
  write_get_next (blankImage_valid (by decide)) (.inr (.inr (.inr rfl)))

/-- The type in `fat_read_sblock`, with `FAT12_MAX_NR_OF_CLUSTERS` and
`FAT16_MAX_NR_OF_CLUSTERS`. -/
def typeOf (nrOfClusters : Nat) : FatType :=
  if nrOfClusters < 4084 then .fat12 else if nrOfClusters < 65524 then .fat16 else .fat32

theorem valid_of_asserted (htype : f.type = typeOf f.nrOfClusters)
    (hmax : f.nrOfClusters + 2 ≤ fatBad) (hc : f.Asserted c) : f.Valid c := by
  refine ⟨hc, ?_⟩
  have hlt : c < f.nrOfClusters + 2 := Nat.lt_of_lt_of_le hc.2 (Nat.mod_le _ _)
  rw [htype, typeOf]
  by_cases h12 : f.nrOfClusters < 4084
  · rw [if_pos h12]
    change c < 0xff7
    omega
  · rw [if_neg h12]
    by_cases h16 : f.nrOfClusters < 65524
    · rw [if_pos h16]
      change c < 0xfff7
      omega
    · rw [if_neg h16]
      exact Nat.lt_of_lt_of_le hlt hmax

variable {ι : Type*} {g : Geometry ι} {s : Fs ι}

/-- The entries on disk stand for the table of a file system. -/
structure Represents (f : FatImage) (g : Geometry ι) (s : Fs ι) : Prop where
  clusters : f.nrOfClusters = g.nrOfClusters
  type : f.type = typeOf f.nrOfClusters
  entry : ∀ c, g.Valid c → f.getNextCluster c = some (s.fat c)

theorem Represents.asserted_iff (h : f.Represents g s) : f.Asserted c ↔ g.Valid c := by
  have hsmall := g.small
  have hmod : (f.nrOfClusters + 2) % 2 ^ 64 = g.nrOfClusters + 2 := by
    rw [h.clusters]
    apply Nat.mod_eq_of_lt
    exact Nat.lt_trans hsmall (by decide)
  rw [Asserted, hmod]
  rfl

theorem Represents.valid (h : f.Represents g s) (hc : g.Valid c) : f.Valid c := by
  apply valid_of_asserted h.type ?_ (h.asserted_iff.mpr hc)
  have hsmall : g.nrOfClusters + 2 < 0x0ffffff8 := g.small
  rw [h.clusters]
  change g.nrOfClusters + 2 ≤ 0x0ffffff7
  omega

theorem Represents.get (h : f.Represents g s) (c : Nat) :
    f.getNextCluster c = fatGetNextCluster g s c := by
  by_cases hc : g.Valid c
  · rw [h.entry c hc, fatGetNextCluster, if_pos hc]
  · rw [getNextCluster, fatGetNextCluster, if_neg hc, if_neg (mt h.asserted_iff.mp hc)]

theorem Represents.write {s' : Fs ι} (h : f.Represents g s) (hv : f.Representable v)
    (hs : fatWriteNextCluster g s c v = some s') :
    ∃ f', f.writeNextCluster c v = some f' ∧ f'.Represents g s' := by
  rw [fatWriteNextCluster] at hs
  by_cases hc : g.Valid c
  · rw [if_pos hc] at hs
    have hfat : s'.fat = update s.fat c v := (congrArg Fs.fat (Option.some.inj hs)).symm
    obtain ⟨f', hwrite, htype, hclusters, hread, hother⟩ :=
      writeNextCluster_spec (h.asserted_iff.mpr hc) hv.encoded
    refine ⟨f', hwrite, hclusters.trans h.clusters, ?_, ?_⟩
    · rw [htype, hclusters, h.type]
    · intro d hd
      by_cases hdc : d = c
      · rw [hfat, hdc, update_self, hread]
      · rw [hfat, update_of_ne hdc, hother d hdc, h.entry d hd]
  · rw [if_neg hc] at hs
    cases hs

/-- Any writes of entries fail on the image where they fail on the table, and what is read
afterwards from any entry is the same. -/
theorem writes_simulated (h : f.Represents g s) (ws : List (Nat × Nat))
    (hws : ∀ w ∈ ws, w.2 = fatFree ∨ g.Valid w.2 ∨ w.2 = fatBad ∨ w.2 = fatEoc) :
    Option.Rel (fun f s => ∀ c, f.getNextCluster c = fatGetNextCluster g s c)
      (ws.foldlM (fun f w => f.writeNextCluster w.1 w.2) f)
      (ws.foldlM (fun s w => fatWriteNextCluster g s w.1 w.2) s) := by
  induction ws generalizing f s with
  | nil => exact .some h.get
  | cons w ws ih =>
    obtain ⟨hw, hrest⟩ := List.forall_mem_cons.mp hws
    have hv : f.Representable w.2 := hw.imp_right (.imp_left h.valid)
    rw [List.foldlM_cons, List.foldlM_cons]
    cases hs : fatWriteNextCluster g s w.1 w.2 with
    | some s' =>
      obtain ⟨f', hf', h'⟩ := h.write hv hs
      rw [hf']
      exact ih h' hrest
    | none =>
      have hc : ¬g.Valid w.1 := by
        intro hc
        rw [fatWriteNextCluster, if_pos hc] at hs
        cases hs
      rw [writeNextCluster, if_neg (mt h.asserted_iff.mp hc)]
      exact .none

theorem writes_simulated_blank : ∃ f',
    [(2, 3), (3, fatEoc)].foldlM (fun f w => f.writeNextCluster w.1 w.2) blankImage = some f' ∧
      f'.getNextCluster 2 = some 3 ∧ f'.getNextCluster 3 = some fatEoc := by
  let g : Geometry Unit := ⟨8, .fat12, 9, (), by decide⟩
  let s : Fs Unit := ⟨fun _ => 0, 2, fun _ => none, 1, fun _ => ⟨0, 0, 0, 0, false, 0⟩⟩
  have hrep : blankImage.Represents g s := by
    refine ⟨rfl, rfl, fun c hc => ?_⟩
    have hread : FatType.fat12.readEntry ⟨fun _ => 0⟩ c = 0 := by
      have hword : ByteMemory.read 2 ⟨fun _ => 0⟩ (FatType.fat12.entryOffset c) = 0 :=
        ByteMemory.read_eq_zero fun _ _ => rfl
      simp [FatType.readEntry, hword]
    have hget : blankImage.getNextCluster c =
        some (FatType.fat12.decode (FatType.fat12.readEntry ⟨fun _ => 0⟩ c)) :=
      if_pos (blankImage_valid hc).1
    rw [hget, hread]
    rfl
  have hrel := writes_simulated hrep [(2, 3), (3, fatEoc)] (by decide)
  have htable : [(2, 3), (3, fatEoc)].foldlM (fun s w => fatWriteNextCluster g s w.1 w.2) s =
      some { s with fat := update (update s.fat 2 3) 3 fatEoc } := rfl
  rw [htable] at hrel
  generalize hrun : [(2, 3), (3, fatEoc)].foldlM
    (fun (f : FatImage) w => f.writeNextCluster w.1 w.2) blankImage = r at hrel ⊢
  cases hrel with
  | some hget => exact ⟨_, rfl, hget 2, hget 3⟩

end FatImage

end Fatfs

end Hurd
