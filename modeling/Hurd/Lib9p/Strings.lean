import Hurd.Lib9p.Wire

/-!
# Strings and qids, as they are encoded and decoded

The length of a string has 16 bits on the wire, while all of its bytes are copied. `p9_encode_string`
compares the length with what is left of the message only.
-/

namespace Hurd.Lib9p

open List

variable {str : Str} {d d' : Draft}

theorem Draft.store_data {w : List UInt8} (h : d.store w = .ok d') : d'.data = d.data ++ w := by
  rw [Draft.store] at h
  by_cases hroom : d.data.length + w.length ≤ d.room
  · rw [if_pos hroom] at h
    exact (congrArg Draft.data (Except.ok.inj h)).symm
  · rw [if_neg hroom] at h
    cases h

/-- The bytes that `p9_encode_string` writes. -/
def stringBytes (str : Str) : List UInt8 := wordBytes 2 str.length ++ str

theorem p9EncodeString_data (h : p9EncodeString str d = .ok d') :
    d'.data = d.data ++ stringBytes str := by
  rw [p9EncodeString] at h
  by_cases hlen : d.len < 2 + str.length
  · rw [if_pos hlen] at h
    cases h
  · rw [if_neg hlen] at h
    obtain ⟨d₁, hlength, hstr⟩ := exceptBind_eq_ok.mp h
    rw [Draft.store_data hstr, Draft.store_data hlength, append_assoc, stringBytes]

theorem p9DecodeString_stringBytes (str : Str) (rest : List UInt8) :
    p9DecodeString true (stringBytes str ++ rest) =
      some (str.take (str.length % 65536), str.drop (str.length % 65536) ++ rest) := by
  have hword : (wordBytes 2 str.length).length = 2 := length_wordBytes 2 _
  have htake : (stringBytes str ++ rest).take 2 = wordBytes 2 str.length := by
    rw [stringBytes, append_assoc]
    exact take_left' hword
  have hdrop : (stringBytes str ++ rest).drop 2 = str ++ rest := by
    rw [stringBytes, append_assoc]
    exact drop_left' hword
  have hslen : bytesWord (wordBytes 2 str.length) = str.length % 65536 := bytesWord_wordBytes 2 _
  have hle : str.length % 65536 ≤ str.length := Nat.mod_le _ _
  have hlong : ¬ (stringBytes str ++ rest).length < 2 := by
    simp only [stringBytes, length_append, hword]
    omega
  have henough : ¬ (str ++ rest).length < str.length % 65536 := by
    simp only [length_append]
    omega
  rw [p9DecodeString, if_neg hlong]
  simp only [htake, hdrop, hslen, if_neg henough, if_true]
  rw [take_append_of_le_length hle, drop_append_of_le_length hle]

theorem p9DecodeString_eq_iff (str : Str) (rest : List UInt8) :
    p9DecodeString true (stringBytes str ++ rest) = some (str, rest) ↔ str.length < 65536 := by
  rw [p9DecodeString_stringBytes]
  constructor
  · intro h
    have htake : str.take (str.length % 65536) = str := congrArg Prod.fst (Option.some.inj h)
    have hlength := congrArg List.length htake
    rw [length_take] at hlength
    have hmod : str.length % 65536 < 65536 := Nat.mod_lt _ (Nat.succ_pos _)
    omega
  · intro h
    rw [Nat.mod_eq_of_lt h, take_length, drop_length, nil_append]

/-- What a successful `p9_encode_string` writes is decoded as the string that was given, whatever
follows it, just if the length of the string fits its field. -/
theorem string_decodes_iff (h : p9EncodeString str d = .ok d') :
    ∃ w, d'.data = d.data ++ w ∧
      ((∀ rest, p9DecodeString true (w ++ rest) = some (str, rest)) ↔ str.length < 65536) := by
  refine ⟨stringBytes str, p9EncodeString_data h, ?_⟩
  constructor
  · intro hall
    exact (p9DecodeString_eq_iff str []).mp (hall [])
  · intro hlen rest
    exact (p9DecodeString_eq_iff str rest).mpr hlen

/-- A message with as much room as the string needs. -/
def roomFor (str : Str) : Draft where
  size := 7 + (2 + str.length)
  room := 2 + str.length
  data := []
  len := 2 + str.length

theorem p9EncodeString_roomFor (str : Str) :
    ∃ d, p9EncodeString str (roomFor str) = .ok d ∧ d.data = stringBytes str := by
  simp [p9EncodeString, roomFor, Draft.store, Except.bind, stringBytes]

theorem string_decodes_uname :
    ∃ d', p9EncodeString [114, 111, 111, 116] (roomFor [114, 111, 111, 116]) = .ok d' ∧
      ∃ w, d'.data = [] ++ w ∧
        ((∀ rest, p9DecodeString true (w ++ rest) = some ([114, 111, 111, 116], rest)) ↔
          [114, 111, 111, 116].length < 65536) :=
  ⟨_, rfl, string_decodes_iff (d := roomFor [114, 111, 111, 116]) rfl⟩

/-- The length of a string of 65536 bytes is stored as 0. -/
theorem long_string_decodes_empty :
    ∃ d, p9EncodeString (List.replicate 65536 97) (roomFor (List.replicate 65536 97)) = .ok d ∧
      p9DecodeString true d.data = some ([], List.replicate 65536 97) ∧
      p9DecodeString true d.data ≠ some (List.replicate 65536 97, []) := by
  obtain ⟨d, hok, hdata⟩ := p9EncodeString_roomFor (List.replicate 65536 97)
  have hdecode : p9DecodeString true d.data = some ([], List.replicate 65536 97) := by
    have h := p9DecodeString_stringBytes (List.replicate 65536 97) []
    rw [append_nil] at h
    rw [hdata, h, length_replicate, Nat.mod_self, take_zero, drop_zero,
      append_nil]
  refine ⟨d, hok, hdecode, ?_⟩
  rw [hdecode]
  intro h
  have hlength := congrArg List.length (congrArg Prod.snd (Option.some.inj h))
  rw [length_replicate] at hlength
  cases hlength

end Hurd.Lib9p
