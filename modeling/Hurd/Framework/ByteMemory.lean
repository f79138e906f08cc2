import Mathlib.Algebra.Order.Ring.Nat
import Mathlib.Data.List.Basic

/-!
# Byte memory

Memory that is read and written through byte addresses: little-endian words, strings, and the
block operations of the C library. What an operation does to an object in memory follows from
which bytes the object consists of: it is there afterwards where its bytes have been copied to.
-/

namespace Hurd

structure ByteMemory where
  byte : Nat → UInt8

namespace ByteMemory

instance : CoeFun ByteMemory fun _ => Nat → UInt8 := ⟨byte⟩

/-- The little-endian word of `n` bytes at `a`. -/
def read : Nat → ByteMemory → Nat → Nat
  | 0, _, _ => 0
  | n + 1, m, a => (m a).toNat + 256 * read n m (a + 1)

/-- Write the lowest `n` bytes of `v` to `a`. -/
def write (n : Nat) (m : ByteMemory) (a v : Nat) : ByteMemory where
  byte i := if a ≤ i ∧ i < a + n then UInt8.ofNat (v / 256 ^ (i - a)) else m i

/-- The `n` bytes from `a` on. -/
def load (m : ByteMemory) (a n : Nat) : List UInt8 := (List.range n).map fun i => m (a + i)

/-- `memcpy` from outside of the memory. -/
def store (m : ByteMemory) (a : Nat) (l : List UInt8) : ByteMemory where
  byte i := if a ≤ i ∧ i < a + l.length then l.getD (i - a) 0 else m i

/-- `memset` -/
def fill (m : ByteMemory) (a n : Nat) (b : UInt8) : ByteMemory where
  byte i := if a ≤ i ∧ i < a + n then b else m i

def move (m : ByteMemory) (dst src n : Nat) : ByteMemory where
  byte i := if dst ≤ i ∧ i < dst + n then m (src + (i - dst)) else m i

/-- The `n` bytes at `a` of `m` are those at `a'` of `m'`. -/
def Copied (n : Nat) (m : ByteMemory) (a : Nat) (m' : ByteMemory) (a' : Nat) : Prop :=
  ∀ i < n, m' (a' + i) = m (a + i)

/-- `m'` differs from `m` in the `n` bytes at `a` only. -/
def Changed (a n : Nat) (m m' : ByteMemory) : Prop := ∀ i, i < a ∨ a + n ≤ i → m' i = m i

variable {m m' m'' : ByteMemory} {a a' a'' b k n v dst src i : Nat}

theorem Changed.refl : Changed a n m m := fun _ _ => rfl

theorem Copied.trans (h : Copied n m a m' a') (h' : Copied n m' a' m'' a'') :
    Copied n m a m'' a'' := fun i hi => (h' i hi).trans (h i hi)

theorem Copied.part (h : Copied n m a m' a') (hk : k + b ≤ n) :
    Copied k m (a + b) m' (a' + b) := by
  intro i hi
  have := h (b + i) (by omega)
  rwa [← Nat.add_assoc, ← Nat.add_assoc] at this

theorem Copied.mono (h : Copied n m a m' a') (hk : k ≤ n) : Copied k m a m' a' :=
  fun i hi => h i (by omega)

theorem Changed.copied (h : Changed a n m m') (hb : b + k ≤ a ∨ a + n ≤ b) :
    Copied k m b m' b := fun i hi => h (b + i) (by omega)

theorem Changed.mono (h : Changed a n m m') (hlow : b ≤ a) (hhigh : a + n ≤ b + k) :
    Changed b k m m' := fun i hi => h i (by omega)

theorem Changed.trans (h : Changed a n m m') (h' : Changed a n m' m'') : Changed a n m m'' :=
  fun i hi => (h' i hi).trans (h i hi)

theorem read_succ (n : Nat) (m : ByteMemory) (a : Nat) :
    read (n + 1) m a = (m a).toNat + 256 * read n m (a + 1) :=
  rfl

theorem read_copied (h : Copied n m a m' a') : read n m' a' = read n m a := by
  induction n generalizing a a' with
  | zero => rfl
  | succ n ih =>
    have hhead : m' a' = m a := by simpa using h 0 (by omega)
    have htail : Copied n m (a + 1) m' (a' + 1) := h.part (by omega)
    rw [read_succ, read_succ, hhead, ih htail]

theorem load_copied (h : Copied n m a m' a') : load m' a' n = load m a n := by
  apply List.map_congr_left
  intro i hi
  exact h i (List.mem_range.mp hi)

@[simp]
theorem load_length (m : ByteMemory) (a n : Nat) : (load m a n).length = n := by
  simp [load]

theorem read_eq_zero (h : ∀ i < n, m (a + i) = 0) : read n m a = 0 := by
  induction n generalizing a with
  | zero => rfl
  | succ n ih =>
    have hhead : m a = 0 := by simpa using h 0 (by omega)
    have htail : read n m (a + 1) = 0 := by
      apply ih
      intro i hi
      rw [Nat.add_assoc, Nat.add_comm 1 i]
      exact h (i + 1) (by omega)
    rw [read_succ, hhead, htail]
    rfl

theorem read_lt (n : Nat) (m : ByteMemory) (a : Nat) : read n m a < 256 ^ n := by
  induction n generalizing a with
  | zero => exact Nat.one_pos
  | succ n ih =>
    have hbyte := (m a).toNat_lt
    have hrest := ih (a + 1)
    rw [read_succ, pow_succ]
    omega

theorem write_changed : Changed a n m (write n m a v) := fun _ _ => if_neg (by omega)

theorem store_changed {l : List UInt8} : Changed a l.length m (store m a l) :=
  fun _ _ => if_neg (by omega)

theorem fill_changed {b : UInt8} : Changed a n m (fill m a n b) := fun _ _ => if_neg (by omega)

theorem move_changed : Changed dst n m (move m dst src n) := fun _ _ => if_neg (by omega)

theorem move_apply (hlow : dst ≤ i) (hhigh : i < dst + n) :
    move m dst src n i = m (src + (i - dst)) := if_pos ⟨hlow, hhigh⟩

theorem write_apply (hlow : a ≤ i) (hhigh : i < a + n) :
    write n m a v i = UInt8.ofNat (v / 256 ^ (i - a)) := if_pos ⟨hlow, hhigh⟩

theorem move_copied : Copied n m src (move m dst src n) dst := by
  intro i hi
  rw [move_apply (by omega) (by omega), Nat.add_sub_cancel_left]

theorem move_self : move m a a n i = m i := by
  by_cases h : a ≤ i ∧ i < a + n
  · rw [move_apply h.1 h.2, Nat.add_sub_cancel' h.1]
  · exact move_changed i (by omega)

theorem fill_apply {b : UInt8} (hlow : a ≤ i) (hhigh : i < a + n) : fill m a n b i = b :=
  if_pos ⟨hlow, hhigh⟩

theorem store_apply {l : List UInt8} (hk : k < l.length) : store m a l (a + k) = l.getD k 0 := by
  simp [store, hk]

theorem load_getD (hk : k < n) : (load m a n).getD k 0 = m (a + k) := by
  simp [load, hk]

theorem load_add (m : ByteMemory) (a n k : Nat) :
    load m a (n + k) = load m a n ++ load m (a + n) k := by
  simp [load, List.range_add, Nat.add_assoc]

theorem load_store (m : ByteMemory) (a : Nat) (l : List UInt8) :
    load (store m a l) a l.length = l := by
  apply List.ext_getElem
  · simp
  · intro i hi _
    have hlt : i < l.length := by simpa using hi
    simp [load, store, hlt]

theorem read_write (n : Nat) (m : ByteMemory) (a v : Nat) :
    read n (write n m a v) a = v % 256 ^ n := by
  induction n generalizing m a v with
  | zero => exact (Nat.mod_one v).symm
  | succ n ih =>
    have htail : Copied n (write n m (a + 1) (v / 256)) (a + 1) (write (n + 1) m a v) (a + 1) := by
      intro i hi
      have hexp : a + 1 + i - a = (a + 1 + i - (a + 1)) + 1 := by omega
      rw [write_apply (by omega) (by omega), write_apply (by omega) (by omega), hexp, pow_succ',
        Nat.div_div_eq_div_mul]
    have hhead : (write (n + 1) m a v a).toNat = v % 256 := by
      simp [write]
    rw [read_succ, read_copied htail, ih, hhead, pow_succ', Nat.mod_mul]

theorem read_write_of_lt (hv : v < 256 ^ n) : read n (write n m a v) a = v := by
  rw [read_write, Nat.mod_eq_of_lt hv]

end ByteMemory

end Hurd
