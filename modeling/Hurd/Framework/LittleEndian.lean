import Mathlib.Algebra.Group.Nat.Defs
import Mathlib.Data.List.Basic

/-!
# Little-endian words

The bytes of a word, lowest first, and how they are read back from the front of a stream.
-/

namespace Hurd

/-- The lowest `n` bytes of `v`. -/
def wordBytes : Nat → Nat → List UInt8
  | 0, _ => []
  | n + 1, v => UInt8.ofNat v :: wordBytes n (v / 256)

/-- The word that consists of the given bytes. -/
def bytesWord : List UInt8 → Nat
  | [] => 0
  | b :: bs => b.toNat + 256 * bytesWord bs

@[simp] theorem length_wordBytes (n v : Nat) : (wordBytes n v).length = n := by
  induction n generalizing v with
  | zero => rfl
  | succ n ih => simp [wordBytes, ih]

theorem bytesWord_wordBytes (n v : Nat) : bytesWord (wordBytes n v) = v % 256 ^ n := by
  induction n generalizing v with
  | zero => simp [wordBytes, bytesWord, Nat.mod_one]
  | succ n ih =>
    have hbyte : (UInt8.ofNat v).toNat = v % 256 := by simp
    rw [wordBytes, bytesWord, ih, hbyte, Nat.pow_succ', Nat.mod_mul]

/-- A read of `n` bytes from a stream, of which it yields at most `got`: the bytes if it is
complete, and what is left of the stream. -/
def readBytes (got n : Nat) (s : List UInt8) : Option (List UInt8) × List UInt8 :=
  let bytes := s.take (min got n)
  (if bytes.length = n then some bytes else none, s.drop bytes.length)

theorem readBytes_append (got : Nat) {n : Nat} {w : List UInt8} (hw : w.length = n) (rest : List UInt8) :
    readBytes got n (w ++ rest) = (some w, rest) ∨ (readBytes got n (w ++ rest)).1 = none := by
  by_cases hgot : n ≤ got
  · left
    subst hw
    simp [readBytes, Nat.min_eq_right hgot]
  · right
    have hlt : min got n = got := Nat.min_eq_left (by omega)
    have hshort : (List.take got (w ++ rest)).length ≠ n := by
      have hle : (List.take got (w ++ rest)).length ≤ got := List.length_take_le _ _
      omega
    simp only [readBytes, hlt, if_neg hshort]

theorem readBytes_nil {got n : Nat} (hn : 0 < n) : (readBytes got n []).1 = none := by
  have hne : (0 : Nat) ≠ n := Nat.ne_of_lt hn
  simp [readBytes, hne]

end Hurd
