import Hurd.Fatfs.FatImage
import Hurd.Framework.Outcome

/-!
# The boot sector

`fat_read_sblock` computes the places of the areas of the file system from the boot sector. All of
the fields are read as words of 16 bits, those of 32 bits too, and the sizes are computed in machine
words of 64 bits; not all that does not fit together is refused.
-/

namespace Hurd.Fatfs

abbrev BootSector := ByteMemory

namespace BootSector

variable (s : BootSector)

/-- `read_word` of each field, under the name of the field. -/
def id : Nat := s.read 2 510
def bytesPerSector : Nat := s.read 2 11
def sectorsPerCluster : Nat := s.read 1 13
def reservedSectors : Nat := s.read 2 14
def nrOfFatTables : Nat := s.read 1 16
def nrOfRootDirents : Nat := s.read 2 17
def totalSectors16 : Nat := s.read 2 19
def sectorsPerFat16 : Nat := s.read 2 22
def extensionFlags : Nat := s.read 2 40
def fsVersion : Nat := s.read 2 42

/-- `read_word` of a field of 32 bits -/
def totalSectors32Word : Nat := s.read 2 32
def sectorsPerFat32Word : Nat := s.read 2 36

/-- The fields of 32 bits. -/
def totalSectors32 : Nat := s.read 4 32
def sectorsPerFat32 : Nat := s.read 4 36

end BootSector

/-- `struct store`, with what it says of its size. -/
structure Store where
  size : Nat
  blockSize : Nat
  log2BlockSize : Nat
  blockSize_eq : blockSize = 2 ^ log2BlockSize

/-- The processed superblock. -/
structure Sblock where
  fatType : FatType
  bytesPerSector : Nat
  log2BytesPerSector : Nat
  sectorsPerCluster : Nat
  bytesPerCluster : Nat
  log2BytesPerCluster : Nat
  sectorsPerFat : Nat
  totalSectors : Nat
  nrOfRootDirSectors : Nat
  firstRootDirByte : Nat
  firstDataSector : Nat
  firstDataByte : Nat
  firstFatSector : Nat
  nrOfClusters : Nat

/-- The first `switch`. -/
def log2Sector : Nat → Option Nat
  | 512 => some 9
  | 1024 => some 10
  | 2048 => some 11
  | 4096 => some 12
  | _ => none

/-- The second `switch`. -/
def log2Cluster : Nat → Option Nat
  | 512 => some 9
  | 1024 => some 10
  | 2048 => some 11
  | 4096 => some 12
  | 8192 => some 13
  | 16384 => some 14
  | 32768 => some 15
  | _ => none

/-- `error` with status 1 where the condition holds. -/
def refuse (c : Prop) [Decidable c] (message : String) : Except String Unit :=
  if c then .error message else .ok ()

/-- `default: error` of a `switch`. -/
def orError (x : Option Nat) (message : String) : Except String Nat :=
  match x with
  | some n => .ok n
  | none => .error message

def totalSectors (s : BootSector) : Nat :=
  if s.totalSectors16 ≠ 0 then s.totalSectors16 else s.totalSectors32Word

def sectorsPerFat (s : BootSector) : Nat :=
  if s.sectorsPerFat16 ≠ 0 then s.sectorsPerFat16 else s.sectorsPerFat32Word

/-- `nr_of_root_dir_sectors`; the product and the difference have 32 bits. -/
def nrOfRootDirSectors (s : BootSector) : Nat :=
  (s.nrOfRootDirents * 32 + 2 ^ 32 - 1) % 2 ^ 32 / s.bytesPerSector + 1

def firstRootDirByte (s : BootSector) (log2BytesPerSector : Nat) : Nat :=
  (s.reservedSectors + s.nrOfFatTables * sectorsPerFat s) <<< log2BytesPerSector % 2 ^ 64

def firstDataSector (s : BootSector) (log2BytesPerSector : Nat) : Nat :=
  firstRootDirByte s log2BytesPerSector >>> log2BytesPerSector + nrOfRootDirSectors s

def nrOfClusters (s : BootSector) (log2BytesPerSector : Nat) : Nat :=
  (totalSectors s + 2 ^ 64 - firstDataSector s log2BytesPerSector) % 2 ^ 64 / s.sectorsPerCluster

/-- `first_fat_sector`: the active table, if only one is. -/
def firstFatSector (s : BootSector) (fatType : FatType) : Except String Nat :=
  if fatType = .fat32 ∧ s.extensionFlags &&& 128 ≠ 0 then
    let active := s.extensionFlags &&& 15
    (refuse (active > s.nrOfFatTables) "Active FAT table does not exist").map fun _ =>
      active * sectorsPerFat s + s.reservedSectors
  else .ok s.reservedSectors

/-- The end of `fat_read_sblock`, from the check of the total size on. -/
def readAreas (store : Store) (s : BootSector) (log2BytesPerSector log2BytesPerCluster : Nat) :
    Except String Sblock :=
  (refuse (totalSectors s * s.bytesPerSector > store.size)
    "Store is smaller then implied by metadata").bind fun _ =>
  (refuse (totalSectors s = 0) "Number of total sectors is zero").bind fun _ =>
  (refuse (s.bytesPerSector &&& (store.blockSize - 1) ≠ 0)
    "Block size of filesystem is not a multiple of the block size of the store").bind fun _ =>
  (refuse (s.reservedSectors = 0) "Number of reserved sectors is zero").bind fun _ =>
  (refuse (s.nrOfFatTables = 0) "Number of FATs is zero").bind fun _ =>
  (refuse (sectorsPerFat s = 0) "Number of sectors per fat is zero").bind fun _ =>
  let fatType := FatImage.typeOf (nrOfClusters s log2BytesPerSector)
  (refuse (fatType = .fat32 ∧ s.fsVersion ≠ 0) "Incompatible file system version").bind fun _ =>
  (firstFatSector s fatType).map fun first =>
    { fatType := fatType
      bytesPerSector := s.bytesPerSector
      log2BytesPerSector := log2BytesPerSector
      sectorsPerCluster := s.sectorsPerCluster
      bytesPerCluster := s.sectorsPerCluster <<< log2BytesPerSector
      log2BytesPerCluster := log2BytesPerCluster
      sectorsPerFat := sectorsPerFat s
      totalSectors := totalSectors s
      nrOfRootDirSectors := nrOfRootDirSectors s
      firstRootDirByte := firstRootDirByte s log2BytesPerSector
      firstDataSector := firstDataSector s log2BytesPerSector
      firstDataByte := firstDataSector s log2BytesPerSector <<< log2BytesPerSector % 2 ^ 64
      firstFatSector := first
      nrOfClusters := nrOfClusters s log2BytesPerSector }

/-- `fat_read_sblock`. No sector is given where it cannot be read. -/
def fatReadSblock (store : Store) (sector : Option BootSector) : Except String Sblock :=
  match sector with
  | none => .error "Could not read superblock"
  | some s =>
      (refuse (s.id ≠ 0xaa55) "Could not find valid superblock").bind fun _ =>
      (orError (log2Sector s.bytesPerSector) "Invalid number of bytes per sector").bind
        fun log2BytesPerSector =>
      (refuse (s.sectorsPerCluster ∉ [1, 2, 4, 8, 16, 32, 64, 128])
        "Invalid number of sectors per cluster").bind fun _ =>
      (orError (log2Cluster (s.sectorsPerCluster <<< log2BytesPerSector))
        "Invalid number of bytes per cluster").bind fun log2BytesPerCluster =>
      readAreas store s log2BytesPerSector log2BytesPerCluster

def fatFirstClusterBlock (store : Store) (b : Sblock) (cluster : Nat) : Nat :=
  ((cluster - 2) <<< (b.log2BytesPerCluster - store.log2BlockSize) +
    b.firstDataByte >>> store.log2BlockSize) % 2 ^ 64

theorem refuse_eq_ok {c : Prop} [Decidable c] {message : String} {u : Unit} :
    refuse c message = .ok u ↔ ¬ c := by
  by_cases hc : c
  · simp [refuse, hc]
  · simp [refuse, hc]

theorem orError_eq_ok {x : Option Nat} {message : String} {n : Nat} :
    orError x message = .ok n ↔ x = some n := by
  cases x with
  | none => simp [orError]
  | some m => simp [orError]

theorem log2Sector_eq {n l : Nat} (h : log2Sector n = some l) : n = 2 ^ l ∧ 9 ≤ l ∧ l ≤ 12 := by
  unfold log2Sector at h
  split at h <;> cases h <;> decide

theorem log2Cluster_eq {n l : Nat} (h : log2Cluster n = some l) : n = 2 ^ l := by
  unfold log2Cluster at h
  split at h <;> cases h <;> decide

/-- What the checks have established of a sector that is accepted, and the values computed from
it. -/
structure Accepted (store : Store) (s : BootSector) (b : Sblock) : Prop where
  sector : s.bytesPerSector = 2 ^ b.log2BytesPerSector
  log2 : 9 ≤ b.log2BytesPerSector ∧ b.log2BytesPerSector ≤ 12
  cluster : s.sectorsPerCluster * s.bytesPerSector = 2 ^ b.log2BytesPerCluster
  sectors : 0 < s.sectorsPerCluster ∧ s.sectorsPerCluster ≤ 128
  size : totalSectors s * s.bytesPerSector ≤ store.size
  block : store.log2BlockSize ≤ b.log2BytesPerSector
  tables : s.nrOfFatTables ≠ 0
  fatType : b.fatType = FatImage.typeOf b.nrOfClusters
  root : b.nrOfRootDirSectors = nrOfRootDirSectors s
  first : b.firstDataSector = firstDataSector s b.log2BytesPerSector
  byte : b.firstDataByte = firstDataSector s b.log2BytesPerSector <<< b.log2BytesPerSector % 2 ^ 64
  clusters : b.nrOfClusters = nrOfClusters s b.log2BytesPerSector

variable {store : Store} {s : BootSector} {b : Sblock}

theorem block_le_of_masked {k l : Nat} (h : 2 ^ l &&& (2 ^ k - 1) = 0) : k ≤ l := by
  rw [Nat.and_two_pow_sub_one_eq_mod] at h
  exact (Nat.pow_dvd_pow_iff_le_right (by decide)).mp (Nat.dvd_of_mod_eq_zero h)

theorem accepted (h : fatReadSblock store (some s) = .ok b) : Accepted store s b := by
  simp only [fatReadSblock, readAreas, exceptBind_eq_ok, exceptMap_eq_ok, refuse_eq_ok,
    orError_eq_ok] at h
  obtain ⟨-, -, l, hl, -, hspc, lc, hlc, -, hsize, -, -, -, hblock, -, -, -, htables, -, -, -, -,
    first, -, rfl⟩ := h
  obtain ⟨hbps, hlow, hhigh⟩ := log2Sector_eq hl
  have hmem : s.sectorsPerCluster ∈ [1, 2, 4, 8, 16, 32, 64, 128] := not_not.mp hspc
  have hcluster : s.sectorsPerCluster * s.bytesPerSector = 2 ^ lc := by
    rw [hbps, ← Nat.shiftLeft_eq]
    exact log2Cluster_eq hlc
  rw [store.blockSize_eq, hbps] at hblock
  constructor
  case sector => exact hbps
  case log2 => exact ⟨hlow, hhigh⟩
  case cluster => exact hcluster
  case sectors =>
    simp only [List.mem_cons, List.not_mem_nil, or_false] at hmem
    omega
  case size => exact Nat.le_of_not_lt hsize
  case block => exact block_le_of_masked (not_not.mp hblock)
  case tables => exact htables
  all_goals rfl

/-- The total number of sectors, as it is stored in the field of 16 or of 32 bits. -/
def storedTotal (s : BootSector) : Nat :=
  if s.totalSectors16 ≠ 0 then s.totalSectors16 else s.totalSectors32

/-- The size of a table, as it is stored in the field of 16 or of 32 bits. -/
def storedPerFat (s : BootSector) : Nat :=
  if s.sectorsPerFat16 ≠ 0 then s.sectorsPerFat16 else s.sectorsPerFat32

/-- The number of sectors that the records of the root directory need. -/
def rootSectors (s : BootSector) : Nat :=
  (32 * s.nrOfRootDirents + s.bytesPerSector - 1) / s.bytesPerSector

/-- The sectors before those of the clusters. -/
def dataStart (s : BootSector) : Nat :=
  s.reservedSectors + s.nrOfFatTables * storedPerFat s + rootSectors s

/-- The values are those of the fields: the areas lie one after the other in the volume, and the
clusters in the store. -/
structure Exact (store : Store) (s : BootSector) (b : Sblock) : Prop where
  root : b.nrOfRootDirSectors = if b.fatType = .fat32 then 0 else rootSectors s
  first : b.firstDataSector =
    s.reservedSectors + s.nrOfFatTables * storedPerFat s + b.nrOfRootDirSectors
  within : b.firstDataSector ≤ storedTotal s
  clusters : b.nrOfClusters = (storedTotal s - b.firstDataSector) / s.sectorsPerCluster
  inside : ∀ c, 2 ≤ c → c < b.nrOfClusters + 2 →
    (fatFirstClusterBlock store b c + 2 ^ (b.log2BytesPerCluster - store.log2BlockSize)) *
      store.blockSize ≤ store.size

/-- There is a root directory of a fixed size, the fields of 32 bits have values of 16 bits where
they are used, and the clusters come after the other areas and are too few for FAT32. -/
def FieldsFit (s : BootSector) : Prop :=
  s.nrOfRootDirents ≠ 0 ∧ storedTotal s < 65536 ∧ storedPerFat s < 65536 ∧
    dataStart s ≤ storedTotal s ∧ (storedTotal s - dataStart s) / s.sectorsPerCluster < 65524

section Widths

theorem read_four (m : ByteMemory) (a : Nat) : m.read 4 a = m.read 2 a + 65536 * m.read 2 (a + 2) := by
  simp only [ByteMemory.read, Nat.add_assoc, Nat.reduceAdd]
  omega

theorem read_two_lt (m : ByteMemory) (a : Nat) : m.read 2 a < 65536 := ByteMemory.read_lt 2 m a

theorem read_four_lt (m : ByteMemory) (a : Nat) : m.read 4 a < 4294967296 := ByteMemory.read_lt 4 m a

theorem totalSectors_eq (s : BootSector) : totalSectors s = storedTotal s % 65536 := by
  have hword := read_two_lt s 32
  have hfour := read_four s 32
  have hsmall := read_two_lt s 19
  rw [totalSectors, storedTotal]
  by_cases h : s.totalSectors16 ≠ 0
  · rw [if_pos h, if_pos h]
    exact (Nat.mod_eq_of_lt hsmall).symm
  · rw [if_neg h, if_neg h, BootSector.totalSectors32Word, BootSector.totalSectors32]
    omega

theorem sectorsPerFat_eq (s : BootSector) : sectorsPerFat s = storedPerFat s % 65536 := by
  have hword := read_two_lt s 36
  have hfour := read_four s 36
  have hsmall := read_two_lt s 22
  rw [sectorsPerFat, storedPerFat]
  by_cases h : s.sectorsPerFat16 ≠ 0
  · rw [if_pos h, if_pos h]
    exact (Nat.mod_eq_of_lt hsmall).symm
  · rw [if_neg h, if_neg h, BootSector.sectorsPerFat32Word, BootSector.sectorsPerFat32]
    omega

theorem storedTotal_lt (s : BootSector) : storedTotal s < 4294967296 := by
  have hsmall := read_two_lt s 19
  have hfour := read_four_lt s 32
  rw [storedTotal]
  by_cases h : s.totalSectors16 ≠ 0
  · rw [if_pos h, BootSector.totalSectors16]
    omega
  · rw [if_neg h, BootSector.totalSectors32]
    omega

theorem nrOfRootDirSectors_eq (hbps : 0 < s.bytesPerSector) :
    nrOfRootDirSectors s =
      if s.nrOfRootDirents = 0 then 4294967295 / s.bytesPerSector + 1 else rootSectors s := by
  have hword := read_two_lt s 17
  rw [nrOfRootDirSectors]
  by_cases h : s.nrOfRootDirents = 0
  · have hmod : (0 * 32 + 2 ^ 32 - 1) % 2 ^ 32 = 4294967295 := by omega
    rw [if_pos h, h, hmod]
  · rw [if_neg h, rootSectors]
    have hdirents : s.nrOfRootDirents < 65536 := hword
    have hmod : (s.nrOfRootDirents * 32 + 2 ^ 32 - 1) % 2 ^ 32 = 32 * s.nrOfRootDirents - 1 := by
      omega
    have hsum : 32 * s.nrOfRootDirents + s.bytesPerSector - 1 =
        32 * s.nrOfRootDirents - 1 + s.bytesPerSector := by omega
    rw [hmod, hsum, Nat.add_div_right _ hbps]

end Widths

theorem Accepted.firstDataSector_eq (h : Accepted store s b) :
    b.firstDataSector = s.reservedSectors + s.nrOfFatTables * sectorsPerFat s +
      b.nrOfRootDirSectors := by
  have hreserved : s.reservedSectors < 65536 := read_two_lt s 14
  have htables : s.nrOfFatTables < 256 := ByteMemory.read_lt 1 s 16
  have hper : sectorsPerFat s < 65536 := by
    rw [sectorsPerFat_eq]
    exact Nat.mod_lt _ (Nat.succ_pos _)
  have hprod : s.nrOfFatTables * sectorsPerFat s ≤ 255 * 65535 :=
    Nat.mul_le_mul (by omega) (by omega)
  have hpow : 2 ^ b.log2BytesPerSector ≤ 2 ^ 12 := Nat.pow_le_pow_right (by decide) h.log2.2
  have hlt : (s.reservedSectors + s.nrOfFatTables * sectorsPerFat s) *
      2 ^ b.log2BytesPerSector < 2 ^ 64 := by
    have hle : (s.reservedSectors + s.nrOfFatTables * sectorsPerFat s) *
        2 ^ b.log2BytesPerSector ≤ (65535 + 255 * 65535) * 2 ^ 12 :=
      Nat.mul_le_mul (by omega) hpow
    exact Nat.lt_of_le_of_lt hle (by decide)
  rw [h.first, h.root, firstDataSector, firstRootDirByte, Nat.shiftLeft_eq, Nat.mod_eq_of_lt hlt,
    Nat.shiftRight_eq_div_pow, Nat.mul_div_cancel _ (Nat.two_pow_pos _)]

theorem div_ne_of_far {m n d : Nat} (hpos : 0 < d) (hd : d ≤ 128) (h : m + 65536 ≤ n) :
    m / d ≠ n / d := by
  have hle : (m + d) / d ≤ n / d := Nat.div_le_div_right (by omega)
  rw [Nat.add_div_right _ hpos] at hle
  omega

theorem total_lt_of_clusters {T F d : Nat} (hpos : 0 < d) (hd : d ≤ 128) (hT : T < 4294967296)
    (hF : F ≤ T) (h : (T % 65536 + 2 ^ 64 - F) % 2 ^ 64 / d = (T - F) / d) : T < 65536 := by
  by_contra hlarge
  by_cases hwrap : F ≤ T % 65536
  · have hmod : (T % 65536 + 2 ^ 64 - F) % 2 ^ 64 = T % 65536 - F := by omega
    rw [hmod] at h
    exact div_ne_of_far hpos hd (by omega) h
  · have hmod : (T % 65536 + 2 ^ 64 - F) % 2 ^ 64 = T % 65536 + 2 ^ 64 - F := by omega
    rw [hmod] at h
    exact div_ne_of_far hpos hd (by omega) h.symm

theorem typeOf_eq_fat32_iff (n : Nat) : FatImage.typeOf n = .fat32 ↔ 65524 ≤ n := by
  rw [FatImage.typeOf]
  by_cases h12 : n < 4084
  · simp [h12]
    omega
  · by_cases h16 : n < 65524
    · simp [h12, h16]
    · simp [h12, h16]
      omega

/-- With the clusters before the end of the volume, each of them is in the store. -/
theorem Accepted.inside (h : Accepted store s b) {total : Nat}
    (hsize : total * s.bytesPerSector ≤ store.size) (hfirst : b.firstDataSector ≤ total)
    (htotal : total < 65536)
    (hclusters : b.nrOfClusters = (total - b.firstDataSector) / s.sectorsPerCluster) {c : Nat}
    (hlow : 2 ≤ c) (hhigh : c < b.nrOfClusters + 2) :
    (fatFirstClusterBlock store b c + 2 ^ (b.log2BytesPerCluster - store.log2BlockSize)) *
      store.blockSize ≤ store.size := by
  obtain ⟨hpos, hle⟩ := h.sectors
  have hblock := h.block
  have hlog : b.log2BytesPerSector ≤ b.log2BytesPerCluster := by
    apply (Nat.pow_le_pow_iff_right (Nat.lt_succ_self 1)).mp
    rw [← h.cluster, ← h.sector]
    exact Nat.le_mul_of_pos_left _ hpos
  -- the clusters up to this one end before the volume does
  have hend : (c - 1) * s.sectorsPerCluster + b.firstDataSector ≤ total := by
    have hmul : (c - 1) * s.sectorsPerCluster ≤ b.nrOfClusters * s.sectorsPerCluster :=
      Nat.mul_le_mul_right _ (by omega)
    have hdiv : b.nrOfClusters * s.sectorsPerCluster ≤ total - b.firstDataSector := by
      rw [hclusters]
      exact Nat.div_mul_le_self _ _
    omega
  have hbytes : (c - 1) * 2 ^ b.log2BytesPerCluster +
      b.firstDataSector * 2 ^ b.log2BytesPerSector ≤ total * s.bytesPerSector := by
    have hle := Nat.mul_le_mul_right s.bytesPerSector hend
    rw [Nat.add_mul, Nat.mul_assoc, h.cluster] at hle
    rw [← h.sector]
    exact hle
  have hsmall : total * s.bytesPerSector < 2 ^ 64 := by
    have hpow : 2 ^ b.log2BytesPerSector ≤ 2 ^ 12 := Nat.pow_le_pow_right (by decide) h.log2.2
    have hle : total * 2 ^ b.log2BytesPerSector ≤ 65535 * 2 ^ 12 :=
      Nat.mul_le_mul (by omega) hpow
    rw [h.sector]
    exact Nat.lt_of_le_of_lt hle (by decide)
  -- in blocks of the store
  have hcluster : 2 ^ b.log2BytesPerCluster =
      2 ^ (b.log2BytesPerCluster - store.log2BlockSize) * 2 ^ store.log2BlockSize := by
    rw [← Nat.pow_add, Nat.sub_add_cancel (Nat.le_trans hblock hlog)]
  have hsector : 2 ^ b.log2BytesPerSector =
      2 ^ (b.log2BytesPerSector - store.log2BlockSize) * 2 ^ store.log2BlockSize := by
    rw [← Nat.pow_add, Nat.sub_add_cancel hblock]
  have hbyte : b.firstDataByte >>> store.log2BlockSize =
      b.firstDataSector * 2 ^ (b.log2BytesPerSector - store.log2BlockSize) := by
    rw [h.byte, ← h.first, Nat.shiftLeft_eq, Nat.mod_eq_of_lt (by omega),
      Nat.shiftRight_eq_div_pow, hsector, ← Nat.mul_assoc,
      Nat.mul_div_cancel _ (Nat.two_pow_pos _)]
  have hsucc : c - 1 = c - 2 + 1 := by omega
  rw [hsucc, Nat.add_mul, Nat.one_mul, hcluster, hsector, ← Nat.mul_assoc, ← Nat.mul_assoc,
    ← Nat.add_mul, ← Nat.add_mul] at hbytes
  have hblocks : (c - 2) * 2 ^ (b.log2BytesPerCluster - store.log2BlockSize) +
      b.firstDataSector * 2 ^ (b.log2BytesPerSector - store.log2BlockSize) < 2 ^ 64 := by
    have hone := Nat.le_mul_of_pos_right ((c - 2) * 2 ^ (b.log2BytesPerCluster -
      store.log2BlockSize) + 2 ^ (b.log2BytesPerCluster - store.log2BlockSize) +
      b.firstDataSector * 2 ^ (b.log2BytesPerSector - store.log2BlockSize))
      (Nat.two_pow_pos store.log2BlockSize)
    have hpow := Nat.two_pow_pos (b.log2BytesPerCluster - store.log2BlockSize)
    omega
  rw [fatFirstClusterBlock, Nat.shiftLeft_eq, hbyte, Nat.mod_eq_of_lt hblocks, store.blockSize_eq,
    Nat.add_right_comm]
  exact Nat.le_trans hbytes hsize

/-- The values computed from a sector that is accepted are those of its fields exactly where these
are consistent. -/
theorem sblock_exact_iff (h : fatReadSblock store (some s) = .ok b) :
    Exact store s b ↔ FieldsFit s := by
  have ha := accepted h
  obtain ⟨hpos, hle⟩ := ha.sectors
  have hbps : 0 < s.bytesPerSector := by
    rw [ha.sector]
    exact Nat.two_pow_pos _
  have hfirst := ha.firstDataSector_eq
  have hroot := ha.root
  rw [nrOfRootDirSectors_eq hbps] at hroot
  have hclusters : b.nrOfClusters =
      (storedTotal s % 65536 + 2 ^ 64 - b.firstDataSector) % 2 ^ 64 / s.sectorsPerCluster := by
    rw [ha.clusters, nrOfClusters, totalSectors_eq, ← ha.first]
  constructor
  · intro hexact
    have hpos' : 0 < b.nrOfRootDirSectors := by
      rw [hroot]
      by_cases hd : s.nrOfRootDirents = 0
      · rw [if_pos hd]
        exact Nat.succ_pos _
      · rw [if_neg hd]
        exact Nat.div_pos (by omega) hbps
    have hwide : b.fatType ≠ .fat32 := by
      intro htype
      have hzero := hexact.root
      rw [if_pos htype] at hzero
      omega
    have hrootEq : b.nrOfRootDirSectors = rootSectors s := by
      rw [hexact.root, if_neg hwide]
    have hdirents : s.nrOfRootDirents ≠ 0 := by
      intro hd
      have hnone : rootSectors s = 0 := by
        rw [rootSectors, hd]
        exact Nat.div_eq_of_lt (by omega)
      omega
    have hper : storedPerFat s < 65536 := by
      have hmul : s.nrOfFatTables * sectorsPerFat s = s.nrOfFatTables * storedPerFat s := by
        have hsame := hfirst.symm.trans hexact.first
        omega
      have heq := Nat.eq_of_mul_eq_mul_left (Nat.pos_of_ne_zero ha.tables) hmul
      rw [← heq, sectorsPerFat_eq]
      exact Nat.mod_lt _ (Nat.succ_pos _)
    have htotal : storedTotal s < 65536 :=
      total_lt_of_clusters hpos hle (storedTotal_lt s) hexact.within
        (hclusters.symm.trans hexact.clusters)
    have hdata : b.firstDataSector = dataStart s := by
      rw [hexact.first, hrootEq, dataStart]
    have hfew : b.nrOfClusters < 65524 := by
      have htype := mt (typeOf_eq_fat32_iff b.nrOfClusters).mpr (ha.fatType ▸ hwide)
      omega
    rw [hexact.clusters, hdata] at hfew
    exact ⟨hdirents, htotal, hper, hdata ▸ hexact.within, hfew⟩
  · intro hcons
    obtain ⟨hdirents, htotal, hper, hdata, hfew⟩ := hcons
    rw [if_neg hdirents] at hroot
    have hperEq : sectorsPerFat s = storedPerFat s := by
      rw [sectorsPerFat_eq, Nat.mod_eq_of_lt hper]
    have hstart : b.firstDataSector = dataStart s := by
      rw [hfirst, hperEq, hroot, dataStart]
    have hnr : b.nrOfClusters = (storedTotal s - b.firstDataSector) / s.sectorsPerCluster := by
      have hmod : (storedTotal s % 65536 + 2 ^ 64 - b.firstDataSector) % 2 ^ 64 =
          storedTotal s - b.firstDataSector := by omega
      rw [hclusters, hmod]
    have hwide : b.fatType ≠ .fat32 := by
      rw [ha.fatType, hnr, hstart]
      intro htype
      have hmany := (typeOf_eq_fat32_iff _).mp htype
      omega
    have hsize : storedTotal s * s.bytesPerSector ≤ store.size := by
      have hsize := ha.size
      rwa [totalSectors_eq, Nat.mod_eq_of_lt htotal] at hsize
    have hwithin : b.firstDataSector ≤ storedTotal s := hstart ▸ hdata
    constructor
    case root => rw [if_neg hwide, hroot]
    case first => rw [hfirst, hperEq]
    case within => exact hwithin
    case clusters => exact hnr
    case inside =>
      intro c hlow hhigh
      exact ha.inside hsize hwithin htotal hnr hlow hhigh

/-- The boot sector of a disk of 2880 sectors, with two tables of nine and 224 records. -/
def floppy : BootSector where
  byte i := match i with
    | 12 => 2 | 13 => 1 | 14 => 1 | 16 => 2 | 17 => 224 | 19 => 0x40 | 20 => 0x0b | 22 => 9
    | 510 => 0x55 | 511 => 0xaa | _ => 0

/-- A store of as many bytes, in blocks of 512. -/
def storeOf (size : Nat) : Store := ⟨size, 512, 9, rfl⟩

theorem exists_sblock {p : Sblock → Bool}
    (h : (fatReadSblock store (some s)).toOption.any p = true) :
    ∃ b, fatReadSblock store (some s) = .ok b ∧ p b = true := by
  cases hread : fatReadSblock store (some s) with
  | error message => simp [hread, Except.toOption] at h
  | ok b => exact ⟨b, rfl, by simpa [hread, Except.toOption] using h⟩

theorem sblock_exact_floppy :
    ∃ b, fatReadSblock (storeOf 1474560) (some floppy) = .ok b ∧
      (Exact (storeOf 1474560) floppy b ↔ FieldsFit floppy) := by
  have hany : (fatReadSblock (storeOf 1474560) (some floppy)).toOption.any (fun _ => true) = true := by
    decide
  obtain ⟨b, hread, -⟩ := exists_sblock hany
  exact ⟨b, hread, sblock_exact_iff hread⟩

/-- The boot sector of a FAT32 volume of 1049088 sectors: it has no records of a root directory, and
two tables of 1024 sectors. -/
def fat32Volume : BootSector where
  byte i := match i with
    | 12 => 2 | 13 => 8 | 14 => 32 | 16 => 2 | 33 => 2 | 34 => 0x10 | 37 => 4
    | 510 => 0x55 | 511 => 0xaa | _ => 0

/-- The root directory of a FAT32 volume is taken to have 8388608 sectors, and the volume 512. -/
theorem fat32_not_exact :
    ∃ b, fatReadSblock (storeOf 537133056) (some fat32Volume) = .ok b ∧
      b.nrOfRootDirSectors = 8388608 ∧ b.totalSectors = 512 ∧
      ¬ Exact (storeOf 537133056) fat32Volume b := by
  have hany : (fatReadSblock (storeOf 537133056) (some fat32Volume)).toOption.any (fun b =>
      b.fatType = .fat32 ∧ b.nrOfRootDirSectors = 8388608 ∧ b.totalSectors = 512) = true := by
    decide
  obtain ⟨b, hread, hp⟩ := exists_sblock hany
  obtain ⟨htype, hroot, htotal⟩ := of_decide_eq_true hp
  refine ⟨b, hread, hroot, htotal, fun hexact => ?_⟩
  have hzero := hexact.root
  rw [if_pos htype, hroot] at hzero
  cases hzero

end Hurd.Fatfs
