import Mathlib.Algebra.Order.Ring.Nat
import Hurd.Framework.Run

/-!
# File contents of the tensor file system

`tensorfs_read`, `tensorfs_write` and the scan of `tensorfs_content_to_embedding` in `tensorfs.c`,
for one file. `none` stands for an access outside the bytes that are allocated.
-/

namespace Hurd.Tensorfs

open List Option

/-- `content`, `content_size` and `embedding` of a node. The embedding is the list of the indices
that are counted in it, which are not normalised here. -/
structure FileNode where
  content : Option (List UInt8)
  contentSize : Nat
  embedding : List Nat
  deriving DecidableEq

/-- The arguments of `tensorfs_write`, whose `content` may be null; what `realloc` returns, with the
bytes that are found in the memory it adds, and whether `tensor_create` succeeds. -/
structure WriteCall where
  content : List UInt8
  null : Bool
  offset : BitVec 64
  fresh : Option (Nat → UInt8)
  tensor : Bool

def isBlank (p : UInt8) : Bool := p == 32 || p == 10 || p == 9

def skipBlank : List UInt8 → Option (List UInt8)
  | [] => none
  | p :: ps => if p ≠ 0 ∧ isBlank p then skipBlank ps else some (p :: ps)

/-- A round of the hash, with the character in lower case. -/
def hashChar (hash : BitVec 64) (p : UInt8) : BitVec 64 :=
  let c := if 65 ≤ p ∧ p ≤ 90 then p + 32 else p
  hash <<< 5 + hash + c.toBitVec.signExtend 64

def hashChars (hash : BitVec 64) : List UInt8 → Option (BitVec 64 × List UInt8)
  | [] => none
  | p :: ps => if p ≠ 0 ∧ ¬isBlank p then hashChars (hashChar hash p) ps else some (hash, p :: ps)

/-- The loop over the words. Each round reads a byte at least, so that there are no more rounds than
bytes. -/
def embedWords (dim : Nat) : Nat → List UInt8 → Option (List Nat)
  | 0, _ | _, [] => none
  | rounds + 1, p :: ps =>
      if p = 0 then some []
      else
        (skipBlank (p :: ps)).bind fun word =>
          if word.head? = some 0 then some []
          else
            (hashChars 5381 word).bind fun (hash, rest) =>
              (embedWords dim rounds rest).map fun e => hash.toNat % dim :: e

def contentToEmbedding (dim : Nat) (content : List UInt8) : Option (List Nat) :=
  embedWords dim (content.length + 1) content

section Scan

variable {l : List UInt8}

theorem skipBlank_spec (h : 0 ∈ l) : ∃ word, skipBlank l = some word ∧ 0 ∈ word ∧
    word.length ≤ l.length ∧ ∀ p ∈ word.head?, p = 0 ∨ ¬isBlank p := by
  induction l with
  | nil => cases h
  | cons p ps ih =>
    rw [skipBlank]
    split
    next hp =>
      have hrest : 0 ∈ ps := (mem_cons.mp h).resolve_left fun h0 => hp.1 h0.symm
      obtain ⟨word, hskip, hmem, hlen, hhead⟩ := ih hrest
      exact ⟨word, hskip, hmem, hlen.trans (Nat.le_succ _), hhead⟩
    next hp =>
      refine ⟨_, rfl, h, le_rfl, fun q hq => ?_⟩
      obtain rfl : p = q := Option.some.inj hq
      by_cases h0 : p = 0
      · exact .inl h0
      · exact .inr fun hb => hp ⟨h0, hb⟩

theorem hashChars_spec (hash : BitVec 64) (h : 0 ∈ l) : ∃ hash' rest,
    hashChars hash l = some (hash', rest) ∧ 0 ∈ rest ∧ rest.length ≤ l.length := by
  induction l generalizing hash with
  | nil => cases h
  | cons p ps ih =>
    rw [hashChars]
    split
    next hp =>
      have hrest : 0 ∈ ps := (mem_cons.mp h).resolve_left fun h0 => hp.1 h0.symm
      obtain ⟨hash', rest, hchars, hmem, hlen⟩ := ih (hashChar hash p) hrest
      exact ⟨hash', rest, hchars, hmem, hlen.trans (Nat.le_succ _)⟩
    next => exact ⟨hash, _, rfl, h, le_rfl⟩

theorem embedWords_isSome (dim : Nat) {rounds : Nat} (h : 0 ∈ l) (hlen : l.length < rounds) :
    ∃ e, embedWords dim rounds l = some e := by
  induction rounds generalizing l with
  | zero => exact absurd hlen (Nat.not_lt_zero _)
  | succ rounds ih =>
    cases l with
    | nil => cases h
    | cons p ps =>
      rw [embedWords]
      by_cases h0 : p = 0
      · exact ⟨_, if_pos h0⟩
      obtain ⟨word, hskip, hmem, hle, hhead⟩ := skipBlank_spec h
      rw [if_neg h0, hskip, bind_some]
      cases word with
      | nil => cases hmem
      | cons q qs =>
        by_cases hq : q = 0
        · exact ⟨_, if_pos (congrArg some hq)⟩
        -- the first character of the word is read in this round
        have hblank : ¬isBlank q := (hhead q rfl).resolve_left hq
        have hqs : 0 ∈ qs := (mem_cons.mp hmem).resolve_left fun h0 => hq h0.symm
        obtain ⟨hash, rest, hchars, hrest, hlt⟩ := hashChars_spec (hashChar 5381 q) hqs
        simp only [length_cons] at hle hlen
        obtain ⟨e, he⟩ := ih hrest (by omega)
        rw [if_neg (by simpa using hq), hashChars, if_pos ⟨hq, hblank⟩, hchars, bind_some]
        exact ⟨_, congrArg (Option.map _) he⟩

theorem contentToEmbedding_isSome (dim : Nat) (h : 0 ∈ l) :
    ∃ e, contentToEmbedding dim l = some e :=
  embedWords_isSome dim h (Nat.lt_succ_self _)

end Scan

/-- Memory made as long as `size`, if it is not already. -/
def extend (m : List UInt8) (fresh : Nat → UInt8) (size : Nat) : List UInt8 :=
  m ++ (List.range (size - m.length)).map fun i => fresh (m.length + i)

def overwrite (m : List UInt8) (offset : Nat) (data : List UInt8) : List UInt8 :=
  m.take offset ++ data ++ m.drop (offset + data.length)

/-- `size_t new_size = offset + size` -/
def WriteCall.newSize (w : WriteCall) : Nat := (w.offset.toNat + w.content.length) % 2 ^ 64

namespace FileNode

variable (f : FileNode)

def bytes : List UInt8 := f.content.getD []

/-- `realloc`, which does not return more than `PTRDIFF_MAX` bytes. -/
def grow (newSize : Nat) (fresh : Option (Nat → UInt8)) : Option FileNode :=
  if f.contentSize < newSize then
    (if newSize < 2 ^ 63 then fresh else none).map fun fresh =>
      { f with content := some (extend f.bytes fresh newSize), contentSize := newSize }
  else some f

/-- The `memcpy` of a write. A negative offset is far behind the end here. -/
def memcpy (offset : BitVec 64) (data : List UInt8) : Option FileNode :=
  if data = [] then some f
  else
    f.content.bind fun m =>
      if offset.toNat + data.length ≤ m.length then
        some { f with content := some (overwrite m offset.toNat data) }
      else none

def embed (dim : Nat) (tensor : Bool) : Option FileNode :=
  match f.content with
  | some m =>
      if tensor then (contentToEmbedding dim m).map fun e => { f with embedding := e } else some f
  | none => some f

/-- `tensorfs_write`. The result tells whether it succeeded, or failed with `ENOMEM`. -/
def write (dim : Nat) (w : WriteCall) : Option (FileNode × Bool) :=
  match f.grow w.newSize w.fresh with
  | none => some (f, false)
  | some f =>
      (if w.null then some f else f.memcpy w.offset w.content).bind fun f =>
        (f.embed dim w.tensor).map fun f => (f, true)

def read (size : Nat) (offset : BitVec 64) : Option (List UInt8) :=
  match f.content with
  | none => some []
  | some m =>
      if f.contentSize ≤ offset.toNat then some []
      else
        let toRead := min size (f.contentSize - offset.toNat)
        if offset.toNat + toRead ≤ m.length then some ((m.drop offset.toNat).take toRead) else none

end FileNode

/-- A write stores its bytes at its offset, and what has not been written is zero. A null pointer
has nothing to store. -/
def idealWrite (file : List UInt8) (w : WriteCall) : List UInt8 :=
  let extended := extend file (fun _ => 0) (w.offset.toNat + w.content.length)
  if w.null then extended else overwrite extended w.offset.toNat w.content

def idealRead (file : List UInt8) (size : Nat) (offset : BitVec 64) : List UInt8 :=
  (file.drop offset.toNat).take size

/-- A file, and what an ideal file is after the same writes. -/
structure FileRun where
  file : FileNode
  ideal : List UInt8
  deriving DecidableEq

/-- A file as `tensorfs_create_file` makes it. -/
def FileRun.create (bytes : List UInt8) : FileRun :=
  ⟨⟨if bytes = [] then none else some bytes, bytes.length, []⟩, bytes⟩

def FileRun.step (dim : Nat) (s : FileRun) (w : WriteCall) : Option FileRun :=
  (s.file.write dim w).map fun (f, ok) => ⟨f, if ok then idealWrite s.ideal w else s.ideal⟩

/-- The write fails for lack of memory. -/
def WriteCall.Fails (w : WriteCall) (f : FileNode) : Prop :=
  f.contentSize < w.newSize ∧ (2 ^ 63 ≤ w.newSize ∨ w.fresh.isNone)

/-- The end of what is read as it comes from `realloc`. -/
def WriteCall.gapEnd (w : WriteCall) : Nat :=
  if w.null then w.offset.toNat + w.content.length else w.offset.toNat

/-- The write fails; or its end is a `size_t`, the memory added in front of its bytes is zero, and
there is a NUL in the file for the embedding to be computed. -/
def WriteCall.Sound (s : FileRun) (w : WriteCall) : Prop :=
  w.Fails s.file ∨
    w.offset.toNat + w.content.length < 2 ^ 64 ∧
      (∀ fresh ∈ w.fresh, ∀ i < w.gapEnd, s.file.contentSize ≤ i → fresh i = 0) ∧
      (w.tensor = true → idealWrite s.ideal w ≠ [] → 0 ∈ idealWrite s.ideal w)

section Write

variable {m : List UInt8} {fresh fresh' : Nat → UInt8} {size n : Nat} {f g : FileNode}
  {s : FileRun} {w : WriteCall}

theorem extend_length (m : List UInt8) (fresh : Nat → UInt8) (size : Nat) :
    (extend m fresh size).length = max m.length size := by
  simp only [extend, length_append, length_map, length_range]
  omega

theorem extend_of_le (fresh : Nat → UInt8) (h : size ≤ m.length) : extend m fresh size = m := by
  simp [extend, Nat.sub_eq_zero_of_le h]

theorem extend_take (h : ∀ i < n, m.length ≤ i → fresh i = fresh' i) :
    (extend m fresh size).take n = (extend m fresh' size).take n := by
  simp only [extend, take_append, ← map_take, take_range]
  congr 1
  apply map_congr_left
  intro i hi
  rw [mem_range] at hi
  exact h _ (by omega) (Nat.le_add_right _ _)

theorem extend_drop (m : List UInt8) (fresh : Nat → UInt8) (size : Nat) :
    (extend m fresh size).drop size = m.drop size := by
  by_cases hle : size ≤ m.length
  · rw [extend_of_le fresh hle]
  · rw [drop_eq_nil_of_le (by rw [extend_length]; omega),
      drop_eq_nil_of_le (by omega)]

theorem overwrite_length {data : List UInt8} {offset : Nat} (h : offset + data.length ≤ m.length) :
    (overwrite m offset data).length = m.length := by
  simp only [overwrite, length_append, length_take, length_drop]
  omega

/-- The node has these bytes and no others allocated. -/
structure FileNode.Holds (f : FileNode) (ideal : List UInt8) : Prop where
  content : f.content = if ideal = [] then none else some ideal
  size : f.contentSize = ideal.length
  small : ideal.length < 2 ^ 63

theorem FileNode.Holds.bytes_eq {ideal : List UInt8} (h : f.Holds ideal) : f.bytes = ideal := by
  rw [FileNode.bytes, h.content]
  split
  next hnil => exact hnil.symm
  next => rfl

theorem overwrite_extend (hfresh : ∀ i < w.gapEnd, m.length ≤ i → fresh i = 0) :
    (if w.null then extend m fresh (w.offset.toNat + w.content.length)
      else overwrite (extend m fresh (w.offset.toNat + w.content.length)) w.offset.toNat
        w.content) = idealWrite m w := by
  unfold WriteCall.gapEnd at hfresh
  unfold idealWrite
  dsimp only
  split
  next hnull =>
    rw [if_pos hnull] at hfresh
    have hall : ∀ fresh : Nat → UInt8, extend m fresh (w.offset.toNat + w.content.length) =
        (extend m fresh (w.offset.toNat + w.content.length)).take
          (w.offset.toNat + w.content.length) ++ m.drop (w.offset.toNat + w.content.length) := by
      intro fresh
      rw [← extend_drop m fresh, take_append_drop]
    rw [hall fresh, hall fun _ => 0, extend_take hfresh]
  next hnull =>
    rw [if_neg hnull] at hfresh
    rw [overwrite, overwrite, extend_drop, extend_drop, extend_take hfresh]

theorem FileNode.Holds.grow {ideal : List UInt8} (h : f.Holds ideal) (hfail : ¬ w.Fails f)
    (hend : w.offset.toNat + w.content.length < 2 ^ 64) :
    ∃ g fresh, f.grow w.newSize w.fresh = some g ∧
      g.Holds (extend ideal fresh (w.offset.toNat + w.content.length)) ∧
      ∀ i, ideal.length ≤ i → i < w.newSize → fresh ∈ w.fresh := by
  have hnew : w.newSize = w.offset.toNat + w.content.length := Nat.mod_eq_of_lt hend
  rw [WriteCall.Fails, not_and_or, not_or, Nat.not_le] at hfail
  rw [FileNode.grow, ← hnew]
  by_cases hlt : f.contentSize < w.newSize
  · obtain ⟨hsmall, hsome⟩ := hfail.resolve_left (not_not.mpr hlt)
    cases hfresh : w.fresh with
    | none => exact absurd (isNone_iff_eq_none.mpr hfresh) hsome
    | some fresh =>
      have hlen : (extend ideal fresh w.newSize).length = w.newSize := by
        rw [extend_length, ← h.size, max_eq_right hlt.le]
      rw [if_pos hlt, if_pos hsmall, map_some, h.bytes_eq]
      refine ⟨_, fresh, rfl, ⟨?_, hlen.symm, hlen.symm ▸ hsmall⟩, fun _ _ _ => rfl⟩
      rw [if_neg fun hnil => by rw [hnil, length_nil] at hlen; omega]
  · rw [if_neg hlt]
    refine ⟨f, fun _ => 0, rfl, ?_, fun i hi hin => absurd hin (by rw [← h.size] at hi; omega)⟩
    rw [extend_of_le _ (by rw [← h.size]; omega)]
    exact h

theorem FileNode.Holds.memcpy {data : List UInt8} {offset : BitVec 64} (h : f.Holds m)
    (hle : offset.toNat + data.length ≤ m.length) :
    ∃ g, f.memcpy offset data = some g ∧ g.Holds (overwrite m offset.toNat data) := by
  rw [FileNode.memcpy]
  by_cases hnil : data = []
  · rw [if_pos hnil, hnil, overwrite, append_nil, length_nil, Nat.add_zero,
      take_append_drop]
    exact ⟨f, rfl, h⟩
  · have hlen := overwrite_length hle
    have hpos : 0 < data.length := length_pos_iff.mpr hnil
    have hne : m ≠ [] := fun hm => by rw [hm, length_nil] at hle; omega
    rw [if_neg hnil, h.content, if_neg hne, bind_some, if_pos hle]
    refine ⟨_, rfl, ?_, h.size.trans hlen.symm, hlen.symm ▸ h.small⟩
    rw [if_neg fun h0 => by rw [h0, length_nil] at hlen; omega]

theorem FileNode.Holds.embed (dim : Nat) {tensor : Bool} (h : f.Holds m)
    (hnul : tensor = true → m ≠ [] → 0 ∈ m) :
    ∃ g, f.embed dim tensor = some g ∧ g.Holds m := by
  rw [FileNode.embed, h.content]
  by_cases hnil : m = []
  · exact ⟨f, by rw [if_pos hnil], h⟩
  cases tensor with
  | false => exact ⟨f, by rw [if_neg hnil]; rfl, h⟩
  | true =>
    obtain ⟨e, he⟩ := contentToEmbedding_isSome dim (hnul rfl hnil)
    refine ⟨{ f with embedding := e }, ?_, h.content, h.size, h.small⟩
    rw [if_neg hnil]
    dsimp only
    rw [if_pos rfl, he, map_some, h.content, if_neg hnil]

theorem FileRun.step_holds (dim : Nat) (h : s.file.Holds s.ideal) (hw : WriteCall.Sound s w) :
    ∃ t, s.step dim w = some t ∧ t.file.Holds t.ideal := by
  by_cases hfail : w.Fails s.file
  · have hgrow : s.file.grow w.newSize w.fresh = none := by
      rw [FileNode.grow, if_pos hfail.1]
      rcases hfail.2 with hbig | hnone
      · rw [if_neg (Nat.not_lt.mpr hbig)]
        rfl
      · rw [isNone_iff_eq_none.mp hnone, ite_self]
        rfl
    refine ⟨s, ?_, h⟩
    rw [FileRun.step, FileNode.write, hgrow]
    rfl
  obtain ⟨hend, hgap, hnul⟩ := hw.resolve_left hfail
  obtain ⟨g, fresh, hgrow, hg, hfresh⟩ := h.grow hfail hend
  have hnew : w.newSize = w.offset.toNat + w.content.length := Nat.mod_eq_of_lt hend
  have hzero : ∀ i < w.gapEnd, s.ideal.length ≤ i → fresh i = 0 := fun i hi hlow =>
    hgap fresh (hfresh i hlow (by rw [hnew]; unfold WriteCall.gapEnd at hi; split at hi <;> omega))
      i hi (h.size.le.trans hlow)
  have hideal := overwrite_extend hzero
  have hcopy : ∃ g', (if w.null then some g else g.memcpy w.offset w.content) = some g' ∧
      g'.Holds (idealWrite s.ideal w) := by
    rw [← hideal]
    split
    · exact ⟨g, rfl, hg⟩
    · exact hg.memcpy (by rw [extend_length]; exact le_max_right _ _)
  obtain ⟨g', hcopy, hg'⟩ := hcopy
  obtain ⟨g'', hembed, hg''⟩ := hg'.embed dim hnul
  refine ⟨⟨g'', idealWrite s.ideal w⟩, ?_, hg''⟩
  rw [FileRun.step, FileNode.write, hgrow]
  dsimp only
  rw [hcopy, bind_some, hembed]
  rfl

theorem FileNode.Holds.read (h : f.Holds m) (size : Nat) (offset : BitVec 64) :
    f.read size offset = some (idealRead m size offset) := by
  rw [FileNode.read, h.content, idealRead]
  by_cases hnil : m = []
  · rw [if_pos hnil, hnil]
    simp
  rw [if_neg hnil]
  dsimp only
  rw [h.size]
  by_cases hle : m.length ≤ offset.toNat
  · rw [if_pos hle, drop_eq_nil_of_le hle, take_nil]
  · rw [if_neg hle, if_pos (by omega), take_eq_take_iff.mpr]
    rw [length_drop]
    omega

end Write

/-- After writes that are sound each time, the file has the bytes of an ideal file, a read of any
size at any offset returns those, and the next sound write touches no bytes but these either. -/
theorem file_contents_ideal (dim : Nat) {bytes : List UInt8} (hsize : bytes.length < 2 ^ 63)
    {s : FileRun} (h : Reach (FileRun.step dim) WriteCall.Sound (FileRun.create bytes) s) :
    s.file.bytes = s.ideal ∧ s.file.contentSize = s.ideal.length ∧
      (∀ size offset, s.file.read size offset = some (idealRead s.ideal size offset)) ∧
      ∀ w, WriteCall.Sound s w → (s.step dim w).isSome := by
  have hs : s.file.Holds s.ideal := by
    apply h.invariant (fun s => s.file.Holds s.ideal) ⟨rfl, rfl, hsize⟩
    intro s w t hs hw hstep
    obtain ⟨t', ht, hholds⟩ := s.step_holds dim hs hw
    cases hstep.symm.trans ht
    exact hholds
  refine ⟨hs.bytes_eq, hs.size, hs.read, fun w hw => ?_⟩
  obtain ⟨t, ht, -⟩ := s.step_holds dim hs hw
  exact isSome_of_eq_some ht

/-- Memory for everything, with zeros in it. -/
def plainWrite (content : List UInt8) (offset : BitVec 64) : WriteCall :=
  ⟨content, false, offset, some fun _ => 0, true⟩

theorem file_contents_ideal_letter : ∃ s, FileRun.step 4 (.create []) (plainWrite [65, 0] 1) = some s ∧
    s.file.read 3 0 = some [0, 65, 0] := by
  have hsound : WriteCall.Sound (.create []) (plainWrite [65, 0] 1) :=
    .inr ⟨by decide, fun fresh hfresh i _ _ => by cases hfresh; rfl, fun _ _ => by decide⟩
  have hrun : FileRun.step 4 (.create []) (plainWrite [65, 0] 1) =
      some ⟨⟨some [0, 65, 0], 3, []⟩, [0, 65, 0]⟩ := by decide
  have hreach := Reach.step (plainWrite [65, 0] 1) Reach.start hsound hrun
  exact ⟨_, hrun, (file_contents_ideal 4 (by decide) hreach).2.2.1 3 0⟩

/-- A letter alone is scanned past its end, a write at a negative offset stores in front of the
file, and behind the end of it what `realloc` has found there is read. -/
theorem contents_not_ideal :
    FileRun.step 4 (.create []) (plainWrite [65] 0) = none ∧
      FileRun.step 4 (.create [7]) (plainWrite [65, 0] (-1)) = none ∧
      ∃ s, FileRun.step 4 (.create [7]) ⟨[0], false, 2, some fun _ => 9, true⟩ = some s ∧
        s.file.read 3 0 = some [7, 9, 0] ∧ idealRead s.ideal 3 0 = [7, 0, 0] := by
  refine ⟨by decide, by decide, ⟨⟨some [7, 9, 0], 3, [0]⟩, [7, 0, 0]⟩, ?_⟩
  decide

end Hurd.Tensorfs
