import Hurd.Lib9p.Client

/-!
# The lengths of requests

The stores of a request add up to the length that was computed for it. So none of them leaves the
buffer, whatever the strings are, and as long as the length has 32 bits the message has just that
length.
-/

namespace Hurd.Lib9p

/-- An encoder refuses a request only if its length does not fit into the header. -/
def Refuses (small : Prop) (e : Stop) : Prop := ¬ small ∧ ∃ x, e = .errno x

/-- `n` bytes are still to be stored; `small` if `len` counts them. -/
structure Draft.Fits (small : Prop) (size n : Nat) (d : Draft) : Prop where
  room : d.data.length + n ≤ d.room
  word : d.room < 2 ^ 64
  left : small → d.len = n
  size : d.size = size

section Drafts

variable {small : Prop} {size n k : Nat} {d : Draft} {str : Str}

theorem Draft.Fits.store (h : d.Fits small size (k + n)) {w : List UInt8} (hw : w.length = k) :
    Yields (Refuses small) (Draft.Fits small size n) (d.store w) := by
  have hroom := h.room
  have hword := h.word
  have hfits : d.data.length + w.length ≤ d.room := by omega
  rw [Draft.store, if_pos hfits]
  refine ⟨?_, hword, ?_, h.size⟩
  · simp only [List.length_append]
    omega
  · intro hsmall
    simp only [h.left hsmall, hw]
    rw [show k + n + 2 ^ 64 - k = n + 2 ^ 64 by omega, Nat.add_mod_right, Nat.mod_eq_of_lt (by omega)]

theorem Draft.Fits.encodeString (h : d.Fits small size (2 + str.length + n)) :
    Yields (Refuses small) (Draft.Fits small size n) (p9EncodeString str d) := by
  by_cases hlen : d.len < 2 + str.length
  · rw [p9EncodeString, if_pos hlen]
    refine ⟨?_, .eproto, rfl⟩
    intro hsmall
    have hleft := h.left hsmall
    omega
  · rw [p9EncodeString, if_neg hlen]
    rw [Nat.add_assoc] at h
    refine (h.store (length_wordBytes 2 str.length)).bind ?_
    intro d' h'
    exact h'.store rfl

theorem Draft.Fits.encodeNames {names : List Str}
    (h : d.Fits small size ((names.map fun name => 2 + name.length).sum + n)) :
    Yields (Refuses small) (Draft.Fits small size n) (Lib9p.encodeNames names d) := by
  induction names generalizing d with
  | nil => simpa [Lib9p.encodeNames, Yields] using h
  | cons name names ih =>
    have hfirst : d.Fits small size
        (2 + name.length + ((names.map fun name => 2 + name.length).sum + n)) := by
      simpa only [List.map_cons, List.sum_cons, Nat.add_assoc] using h
    refine hfirst.encodeString.bind ?_
    intro d' h'
    exact ih h'

theorem newDraft_fits {len : Nat} (hlen : 7 ≤ len)
    (hword : 8 + len < 2 ^ 64) :
    Yields (Refuses small) (Draft.Fits (len < 2 ^ 32) (len % 2 ^ 32) (len - 7))
      (newDraft len) := by
  have hall : (8 + len) % 2 ^ 64 = 8 + len := Nat.mod_eq_of_lt hword
  have hfull : ¬ 8 + len < 8 := by omega
  simp only [newDraft, hall, if_neg hfull]
  refine ⟨?_, ?_, ?_, rfl⟩
  · simp only [List.length_nil]
    omega
  · simp only
    omega
  · intro hsmall
    simp only [Nat.mod_eq_of_lt hsmall]
    omega

end Drafts

section Requests

/-- What the request stores after the header are the bytes that its length counts. -/
structure Request.Counted (r : Request) : Prop where
  header : 7 ≤ r.len
  fill : ∀ {small : Prop} {size : Nat} {d : Draft}, d.Fits small size (r.len - 7) →
    Yields (Refuses small) (Draft.Fits small size 0) (r.fill d)

theorem counted_versionRequest (version : Str) (msize : Nat) :
    (versionRequest version msize).Counted where
  header := by simp only [versionRequest]; omega
  fill {small size d} h := by
    have hlen : (versionRequest version msize).len - 7 = 4 + (2 + version.length + 0) := by
      simp only [versionRequest]
      omega
    rw [hlen] at h
    refine (h.store (length_wordBytes 4 msize)).bind ?_
    intro d₁ h₁
    exact h₁.encodeString

theorem counted_attachRequest (fid : Nat) (uname : Str) (aname : Option Str) :
    (attachRequest fid uname aname).Counted where
  header := by simp only [attachRequest]; omega
  fill {small size d} h := by
    have hlen : (attachRequest fid uname aname).len - 7 =
        4 + (4 + (2 + uname.length + (2 + (aname.getD []).length + 0))) := by
      simp only [attachRequest]
      omega
    rw [hlen] at h
    refine (h.store (length_wordBytes 4 fid)).bind ?_
    intro d₁ h₁
    refine (h₁.store (length_wordBytes 4 nofid)).bind ?_
    intro d₂ h₂
    refine h₂.encodeString.bind ?_
    intro d₃ h₃
    exact h₃.encodeString

theorem counted_walkRequest (fid newfid : Nat) (names : List Str) :
    (walkRequest fid newfid names).Counted where
  header := by simp only [walkRequest]; omega
  fill {small size d} h := by
    have hlen : (walkRequest fid newfid names).len - 7 =
        4 + (4 + (2 + ((names.map fun name => 2 + name.length).sum + 0))) := by
      simp only [walkRequest]
      omega
    rw [hlen] at h
    refine (h.store (length_wordBytes 4 fid)).bind ?_
    intro d₁ h₁
    refine (h₁.store (length_wordBytes 4 newfid)).bind ?_
    intro d₂ h₂
    refine (h₂.store (length_wordBytes 2 names.length)).bind ?_
    intro d₃ h₃
    exact h₃.encodeNames

theorem counted_openRequest (fid : Nat) (mode : UInt8) : (openRequest fid mode).Counted where
  header := by simp only [openRequest]; omega
  fill {small size d} h := by
    refine (h.store (n := 1) (length_wordBytes 4 fid)).bind ?_
    intro d₁ h₁
    exact h₁.store (n := 0) rfl

theorem counted_readRequest (fid count offset : Nat) : (readRequest fid count offset).Counted where
  header := by simp only [readRequest]; omega
  fill {small size d} h := by
    refine (h.store (n := 12) (length_wordBytes 4 fid)).bind ?_
    intro d₁ h₁
    refine (h₁.store (n := 4) (length_wordBytes 8 offset)).bind ?_
    intro d₂ h₂
    exact h₂.store (n := 0) (length_wordBytes 4 count)

theorem counted_writeRequest (fid : Nat) (buf : List UInt8) (offset : Nat) :
    (writeRequest fid buf offset).Counted where
  header := by simp only [writeRequest]; omega
  fill {small size d} h := by
    have hlen : (writeRequest fid buf offset).len - 7 = 4 + (8 + (4 + (buf.length + 0))) := by
      simp only [writeRequest]
      omega
    rw [hlen] at h
    refine (h.store (length_wordBytes 4 fid)).bind ?_
    intro d₁ h₁
    refine (h₁.store (length_wordBytes 8 offset)).bind ?_
    intro d₂ h₂
    refine (h₂.store (length_wordBytes 4 buf.length)).bind ?_
    intro d₃ h₃
    exact h₃.store rfl

theorem counted_clunkRequest (fid : Nat) : (clunkRequest fid).Counted where
  header := by simp only [clunkRequest]; omega
  fill {small size d} h := h.store (n := 0) (length_wordBytes 4 fid)

variable {r : Request} {tag : UInt16}

theorem Request.Counted.build (h : r.Counted) (tag : UInt16) (hword : 8 + r.len < 2 ^ 64) :
    Yields (Refuses (r.len < 2 ^ 32)) (fun m => m.size = r.len % 2 ^ 32) (r.build tag) := by
  refine (newDraft_fits h.header hword).bind ?_
  intro d hd
  exact (h.fill hd).map fun _ hd' => hd'.size

theorem Request.build_tag {m : Message} (h : r.build tag = .ok m) : m.tag = tag := by
  obtain ⟨d, -, hfill⟩ := exceptBind_eq_ok.mp h
  obtain ⟨d', -, rfl⟩ := exceptMap_eq_ok.mp hfill
  rfl

end Requests

end Hurd.Lib9p
