import Mathlib.Algebra.Order.Ring.Nat

/-!
# Output in pieces

`display_output` and `display_output_some` of `console/display.c`: bytes are converted to wide
characters, and the beginning of a sequence at the end of the input is kept for the next call.
`iconv` is a parameter.
-/

namespace Hurd.Console

open List

/-- What `iconv` finds at the start of its input: a sequence of so many bytes, which may yield a
character, and the state behind it; `EILSEQ`; or `EINVAL`. -/
inductive Decoded (σ : Type) where
  | converted (char : Option Nat) (used : Nat) (state : σ)
  | illegal
  | incomplete
  deriving DecidableEq

structure Iconv (σ : Type) where
  decode : σ → List UInt8 → Decoded σ
  used_pos : ∀ {q l c n q'}, decode q l = .converted c n q' → 0 < n ∧ n ≤ l.length
  converted_append : ∀ {q l c n q'}, decode q l = .converted c n q' →
    ∀ l', decode q (l ++ l') = .converted c n q'
  illegal_append : ∀ {q l}, decode q l = .illegal → ∀ l', decode q (l ++ l') = .illegal

/-- How a call of `iconv` ends; the second one is `E2BIG`. -/
inductive IconvEnd where
  | done | tooBig | illegal | incomplete
  deriving DecidableEq

/-- Characters that have been converted, the input that is left, and the state. -/
structure Conversion (σ : Type) where
  chars : List Nat
  rest : List UInt8
  state : σ

/-- `struct output`: the conversion descriptor, and the buffer with its size when allocated. -/
structure OutputBuffer (σ : Type) where
  cd : σ
  buffer : List UInt8
  allocated : Nat

section Code

variable {σ : Type} (iconv : Iconv σ)

/-- A call of `iconv` with room for so many characters. There are no more sequences than bytes. -/
def Iconv.convert : Nat → Nat → σ → List UInt8 → Conversion σ × IconvEnd
  | 0, _, q, input => (⟨[], input, q⟩, .done)
  | bytes + 1, room, q, input =>
      if input = [] then (⟨[], input, q⟩, .done)
      else
        match iconv.decode q input with
        | .incomplete => (⟨[], input, q⟩, .incomplete)
        | .illegal => (⟨[], input, q⟩, .illegal)
        | .converted c n q' =>
            if c.isSome ∧ room = 0 then (⟨[], input, q⟩, .tooBig)
            else
              let r := Iconv.convert bytes (room - c.toList.length) q' (input.drop n)
              (⟨c.toList ++ r.1.chars, r.1.rest, r.1.state⟩, r.2)

def replacementCharacter : Nat := 0xfffd

/-- `display_output_some`, with the characters it passes to `display_output_one`. Each round of its
loop takes a byte at least. -/
def outputSome : Nat → σ → List UInt8 → Conversion σ
  | 0, q, input => ⟨[], input, q⟩
  | rounds + 1, q, input =>
      if input = [] then ⟨[], input, q⟩
      else
        -- `CONV_OUTBUF_SIZE` characters
        let r := iconv.convert input.length 256 q input
        match r.2 with
        | .incomplete => r.1
        | .illegal =>
            let s := outputSome rounds r.1.state r.1.rest.tail
            ⟨r.1.chars ++ replacementCharacter :: s.chars, s.rest, s.state⟩
        | .done | .tooBig =>
            let s := outputSome rounds r.1.state r.1.rest
            ⟨r.1.chars ++ s.chars, s.rest, s.state⟩

/-- `ensure_output_buffer_size`, with whether `realloc` finds the memory. -/
def ensureOutputBufferSize (memory : Bool) (allocated newSize : Nat) : Option Nat :=
  if allocated < newSize then
    if memory then some ((newSize + 31) / 32 * 32) else none
  else some allocated

/-- `display_output` behind its wait: the output, the characters and what is returned. When there is
no memory that is -1, or `ENOMEM` itself. -/
def displayOutput (memory : Bool) (s : OutputBuffer σ) (data : List UInt8) :
    OutputBuffer σ × List Nat × Int :=
  match (if s.buffer = [] then some s.allocated
    else ensureOutputBufferSize memory s.allocated (s.buffer.length + data.length)) with
  | none => (s, [], -1)
  | some allocated =>
      let input := s.buffer ++ data
      let r := outputSome iconv input.length s.cd input
      match (if r.rest = [] then some allocated
        else ensureOutputBufferSize memory allocated r.rest.length) with
      | none => ({ s with cd := r.state, allocated := allocated }, r.chars, 0x4000000c)
      | some allocated => (⟨r.state, r.rest, allocated⟩, r.chars, input.length)

/-- A call for each piece: the output behind them, the characters, and what they return. -/
def outputPieces : OutputBuffer σ → List (List UInt8) → OutputBuffer σ × List Nat × List Int
  | s, [] => (s, [], [])
  | s, data :: pieces =>
      let r := displayOutput iconv true s data
      let t := outputPieces r.1 pieces
      (t.1, r.2.1 ++ t.2.1, r.2.2 :: t.2.2)

/-- What is in the buffer waits for more bytes. -/
def OutputBuffer.Unfinished (s : OutputBuffer σ) : Prop :=
  s.buffer = [] ∨ iconv.decode s.cd s.buffer = .incomplete

/-- No call returns more bytes than it was given. -/
def NoneReturnsMore (pieces : List (List UInt8)) (returned : List Int) : Prop :=
  List.Forall₂ (fun data n => n ≤ (data.length : Int)) pieces returned

/-- Each call begins with an empty buffer. -/
def StartsEmpty : OutputBuffer σ → List (List UInt8) → Prop
  | _, [] => True
  | s, data :: pieces => s.buffer = [] ∧ StartsEmpty (displayOutput iconv true s data).1 pieces

end Code

/-- The characters of a string, sequence by sequence, and what is left of it at the end. -/
inductive Decodes {σ : Type} (iconv : Iconv σ) : σ → List UInt8 → Conversion σ → Prop
  | empty (q : σ) : Decodes iconv q [] ⟨[], [], q⟩
  | incomplete {q : σ} {l : List UInt8} : l ≠ [] → iconv.decode q l = .incomplete →
      Decodes iconv q l ⟨[], l, q⟩
  | illegal {q : σ} {b : UInt8} {l : List UInt8} {r : Conversion σ} :
      iconv.decode q (b :: l) = .illegal → Decodes iconv q l r →
      Decodes iconv q (b :: l) ⟨replacementCharacter :: r.chars, r.rest, r.state⟩
  | converted {q q' : σ} {l : List UInt8} {c : Option Nat} {n : Nat} {r : Conversion σ} : l ≠ [] →
      iconv.decode q l = .converted c n q' → Decodes iconv q' (l.drop n) r →
      Decodes iconv q l ⟨c.toList ++ r.chars, r.rest, r.state⟩

section Decoding

variable {σ : Type} {iconv : Iconv σ} {q : σ} {l l' : List UInt8} {r r' : Conversion σ}

theorem Decodes.unique (h : Decodes iconv q l r) (h' : Decodes iconv q l r') : r = r' := by
  induction h generalizing r' with
  | empty q =>
    cases h' with
    | empty => rfl
    | incomplete hne _ | converted hne _ _ => exact absurd rfl hne
  | incomplete hne hdec =>
    cases h' with
    | empty => exact absurd rfl hne
    | incomplete => rfl
    | illegal hdec' _ | converted _ hdec' _ => cases hdec.symm.trans hdec'
  | illegal hdec _ ih =>
    cases h' with
    | illegal _ hrest => rw [ih hrest]
    | incomplete _ hdec' | converted _ hdec' _ => cases hdec.symm.trans hdec'
  | converted hne hdec _ ih =>
    cases h' with
    | empty => exact absurd rfl hne
    | incomplete _ hdec' | illegal hdec' _ => cases hdec.symm.trans hdec'
    | converted _ hdec' hrest =>
      cases hdec.symm.trans hdec'
      rw [ih hrest]

theorem Decodes.append (h : Decodes iconv q l r) (h' : Decodes iconv r.state (r.rest ++ l') r') :
    Decodes iconv q (l ++ l') ⟨r.chars ++ r'.chars, r'.rest, r'.state⟩ := by
  induction h with
  | empty q => exact h'
  | incomplete => exact h'
  | illegal hdec _ ih => exact .illegal (iconv.illegal_append hdec l') (ih h')
  | @converted q q' l c n r hne hdec _ ih =>
    have hrest := ih h'
    rw [← drop_append_of_le_length (iconv.used_pos hdec).2] at hrest
    rw [append_assoc]
    exact .converted (fun hnil => hne (append_eq_nil_iff.mp hnil).1)
      (iconv.converted_append hdec l') hrest

theorem Decodes.unfinished (h : Decodes iconv q l r) :
    r.rest = [] ∨ iconv.decode r.state r.rest = .incomplete := by
  induction h with
  | empty => exact .inl rfl
  | incomplete _ hdec => exact .inr hdec
  | illegal _ _ ih => exact ih
  | converted _ _ _ ih => exact ih

/-- What the end of a call says of the input that is left. -/
def IconvEnd.Means (iconv : Iconv σ) (l : List UInt8) (r : Conversion σ) : IconvEnd → Prop
  | .done => r.rest = []
  | .tooBig => r.rest.length < l.length
  | .illegal => ∃ b rest, r.rest = b :: rest ∧ iconv.decode r.state r.rest = .illegal
  | .incomplete => r.rest ≠ [] ∧ iconv.decode r.state r.rest = .incomplete

/-- A call of `iconv` converts what is in front of the input that it leaves. -/
structure Converts (iconv : Iconv σ) (room : Nat) (q : σ) (l : List UInt8)
    (out : Conversion σ × IconvEnd) : Prop where
  length_le : out.1.rest.length ≤ l.length
  decodes : ∀ r, Decodes iconv out.1.state out.1.rest r →
    Decodes iconv q l ⟨out.1.chars ++ r.chars, r.rest, r.state⟩
  ending : out.2 = .tooBig ∧ room = 0 ∨ out.2.Means iconv l out.1

theorem convert_converts {bytes : Nat} (room : Nat) (q : σ) (hl : l.length ≤ bytes) :
    Converts iconv room q l (iconv.convert bytes room q l) := by
  induction bytes generalizing room q l with
  | zero => exact ⟨le_rfl, fun r h => h, .inr (length_eq_zero_iff.mp (Nat.le_zero.mp hl))⟩
  | succ bytes ih =>
    rw [Iconv.convert]
    by_cases hne : l = []
    · rw [if_pos hne]
      exact ⟨le_rfl, fun r h => h, .inr hne⟩
    rw [if_neg hne]
    cases hdec : iconv.decode q l with
    | incomplete => exact ⟨le_rfl, fun r h => h, .inr ⟨hne, hdec⟩⟩
    | illegal =>
      obtain ⟨b, rest, rfl⟩ := exists_cons_of_ne_nil hne
      exact ⟨le_rfl, fun r h => h, .inr ⟨b, rest, rfl, hdec⟩⟩
    | converted c n q' =>
      dsimp only
      split
      next hfull => exact ⟨le_rfl, fun r h => h, .inl ⟨rfl, hfull.2⟩⟩
      next =>
        obtain ⟨hpos, hle⟩ := iconv.used_pos hdec
        have hlen : (l.drop n).length = l.length - n := length_drop ..
        have hrest := ih (room - c.toList.length) q' (l := l.drop n) (by omega)
        have hshort := hrest.length_le
        refine ⟨by dsimp only; omega, fun r hr => ?_, ?_⟩
        · rw [append_assoc]
          exact .converted hne hdec (hrest.decodes r hr)
        · generalize iconv.convert bytes (room - c.toList.length) q' (l.drop n) = out at *
          obtain ⟨r, ending⟩ := out
          cases ending with
          | tooBig =>
            right
            show r.rest.length < l.length
            dsimp only at hshort
            omega
          | done | illegal | incomplete => exact .inr (hrest.ending.resolve_left (by simp))

theorem outputSome_decodes {rounds : Nat} (q : σ) (hl : l.length ≤ rounds) :
    Decodes iconv q l (outputSome iconv rounds q l) := by
  induction rounds generalizing q l with
  | zero =>
    obtain rfl := length_eq_zero_iff.mp (Nat.le_zero.mp hl)
    exact .empty q
  | succ rounds ih =>
    rw [outputSome]
    by_cases hne : l = []
    · rw [if_pos hne, hne]
      exact .empty q
    rw [if_neg hne]
    have hcall : Converts iconv 256 q l _ := convert_converts 256 q (le_refl l.length)
    generalize iconv.convert l.length 256 q l = out at hcall ⊢
    obtain ⟨r, ending⟩ := out
    have hend := hcall.ending.resolve_left fun h => absurd h.2 (by decide)
    have hle := hcall.length_le
    dsimp only at hle ⊢
    cases ending with
    | incomplete =>
      have hrest := hcall.decodes _ (.incomplete hend.1 hend.2)
      rwa [append_nil] at hrest
    | illegal =>
      obtain ⟨b, rest, heq, hdec⟩ := hend
      dsimp only at heq hdec ⊢
      rw [heq, length_cons] at hle
      have hrest := ih r.state (l := rest) (by omega)
      rw [heq] at hdec
      rw [heq, tail_cons]
      apply hcall.decodes ⟨_, _, _⟩
      rw [heq]
      exact .illegal hdec hrest
    | done =>
      have hnil : r.rest = [] := hend
      exact hcall.decodes _ (ih r.state (by simp [hnil]))
    | tooBig =>
      have hlt : r.rest.length < l.length := hend
      exact hcall.decodes _ (ih r.state (by dsimp only; omega))

end Decoding

section Calls

variable {σ : Type} {iconv : Iconv σ} {s : OutputBuffer σ}

theorem ensureOutputBufferSize_memory (allocated newSize : Nat) :
    ∃ n, ensureOutputBufferSize true allocated newSize = some n := by
  rw [ensureOutputBufferSize]
  split
  · exact ⟨_, rfl⟩
  · exact ⟨_, rfl⟩

theorem displayOutput_decodes (iconv : Iconv σ) (s : OutputBuffer σ) (data : List UInt8) :
    ∃ (t : OutputBuffer σ) (r : Conversion σ), displayOutput iconv true s data =
        (t, r.chars, ((s.buffer.length + data.length : Nat) : Int)) ∧
      t.cd = r.state ∧ t.buffer = r.rest ∧ Decodes iconv s.cd (s.buffer ++ data) r := by
  have hdec : Decodes iconv s.cd (s.buffer ++ data) _ :=
    outputSome_decodes s.cd (le_refl (s.buffer ++ data).length)
  obtain ⟨n, hn⟩ : ∃ n, (if s.buffer = [] then some s.allocated
      else ensureOutputBufferSize true s.allocated (s.buffer.length + data.length)) = some n := by
    split
    · exact ⟨_, rfl⟩
    · exact ensureOutputBufferSize_memory _ _
  rw [displayOutput, hn]
  dsimp only
  generalize outputSome iconv (s.buffer ++ data).length s.cd (s.buffer ++ data) = r at *
  obtain ⟨k, hk⟩ : ∃ k, (if r.rest = [] then some n
      else ensureOutputBufferSize true n r.rest.length) = some k := by
    split
    · exact ⟨_, rfl⟩
    · exact ensureOutputBufferSize_memory _ _
  rw [hk, length_append]
  exact ⟨_, r, rfl, rfl, rfl, hdec⟩

theorem outputPieces_decodes (pieces : List (List UInt8)) (hs : s.Unfinished iconv) :
    ∃ (t : OutputBuffer σ) (r : Conversion σ) (returned : List Int),
      outputPieces iconv s pieces = (t, r.chars, returned) ∧ t.cd = r.state ∧ t.buffer = r.rest ∧ Decodes iconv s.cd (s.buffer ++ pieces.flatten) r ∧
      (NoneReturnsMore pieces returned ↔ StartsEmpty iconv s pieces) := by
  induction pieces generalizing s with
  | nil =>
    refine ⟨s, ⟨[], s.buffer, s.cd⟩, [], rfl, rfl, rfl, ?_, iff_of_true .nil trivial⟩
    rw [flatten_nil, append_nil]
    rcases hs with hnil | hdec
    · rw [hnil]
      exact .empty s.cd
    · by_cases hnil : s.buffer = []
      · rw [hnil]
        exact .empty s.cd
      · exact .incomplete hnil hdec
  | cons data pieces ih =>
    obtain ⟨u, r, hcall, hcd, hbuffer, hdec⟩ := displayOutput_decodes iconv s data
    have hu : u.Unfinished iconv := by
      rw [OutputBuffer.Unfinished, hcd, hbuffer]
      exact hdec.unfinished
    obtain ⟨t, r', returned, hrest, htcd, htbuffer, hdec', hiff⟩ := ih hu
    rw [hcd, hbuffer] at hdec'
    have hall := hdec.append hdec'
    rw [append_assoc] at hall
    refine ⟨t, ⟨r.chars ++ r'.chars, r'.rest, r'.state⟩,
      ((s.buffer.length + data.length : Nat) : Int) :: returned, ?_, htcd, htbuffer, hall, ?_⟩
    · rw [outputPieces, hcall]
      dsimp only
      rw [hrest]
    · rw [NoneReturnsMore, forall₂_cons, StartsEmpty, hcall]
      apply Iff.trans (and_congr_right' hiff)
      apply and_congr_left'
      rw [← length_eq_zero_iff]
      omega

end Calls

/-- The characters are the same for every way of splitting a string, and no call returns more bytes
than it was given exactly when each finds the buffer empty. -/
theorem display_output_iff {σ : Type} (iconv : Iconv σ) (s : OutputBuffer σ)
    (hs : s.Unfinished iconv) (pieces : List (List UInt8)) :
    (outputPieces iconv s pieces).2.1 = (displayOutput iconv true s pieces.flatten).2.1 ∧
        NoneReturnsMore pieces (outputPieces iconv s pieces).2.2 ↔
      StartsEmpty iconv s pieces := by
  obtain ⟨t, r, returned, hrun, -, -, hdec, hiff⟩ := outputPieces_decodes pieces hs
  obtain ⟨u, r', hcall, -, -, hdec'⟩ := displayOutput_decodes iconv s pieces.flatten
  rw [hrun, hcall, hdec.unique hdec', ← hiff]
  exact and_iff_right rfl

/-- The sequences of one and of two bytes of UTF-8. -/
def utf8Decode : List UInt8 → Decoded Unit
  | [] => .incomplete
  | b :: l =>
      if b < 0x80 then .converted (some b.toNat) 1 ()
      else if b < 0xc2 ∨ 0xe0 ≤ b then .illegal
      else
        match l with
        | [] => .incomplete
        | c :: _ =>
            if c < 0x80 ∨ 0xc0 ≤ c then .illegal
            else .converted (some ((b.toNat - 0xc0) * 64 + (c.toNat - 0x80))) 2 ()

theorem utf8Decode_append (l l' : List UInt8) :
    utf8Decode l = .incomplete ∨ utf8Decode (l ++ l') = utf8Decode l := by
  rcases l with _ | ⟨b, _ | ⟨c, l⟩⟩
  · exact .inl rfl
  · simp only [cons_append, utf8Decode]
    split_ifs
    · exact .inr rfl
    · exact .inr rfl
    · exact .inl rfl
  · exact .inr rfl

/-- UTF-8 as far as characters of one and of two bytes go. -/
def utf8 : Iconv Unit where
  decode _ l := utf8Decode l
  used_pos := by
    intro _ l c n _ h
    rcases l with _ | ⟨b, _ | ⟨d, l⟩⟩
    · cases h
    · simp only [utf8Decode] at h
      split_ifs at h
      cases h
      exact ⟨Nat.one_pos, le_rfl⟩
    · simp only [utf8Decode] at h
      split_ifs at h
      · cases h
        simp
      · cases h
        simp
  converted_append h l' :=
    ((utf8Decode_append _ l').resolve_left fun hno => by cases hno.symm.trans h).trans h
  illegal_append h l' :=
    ((utf8Decode_append _ l').resolve_left fun hno => by cases hno.symm.trans h).trans h

/-- The output of a new display. -/
def noOutput : OutputBuffer Unit := ⟨(), [], 0⟩

theorem display_output_iff_letters :
    (outputPieces utf8 noOutput [[0xc3, 0xa9], [0xc3, 0xa8]]).2.1 =
        (displayOutput utf8 true noOutput [0xc3, 0xa9, 0xc3, 0xa8]).2.1 ∧
      NoneReturnsMore [[0xc3, 0xa9], [0xc3, 0xa8]]
        (outputPieces utf8 noOutput [[0xc3, 0xa9], [0xc3, 0xa8]]).2.2 :=
  (display_output_iff utf8 noOutput (.inl rfl) [[0xc3, 0xa9], [0xc3, 0xa8]]).mpr
    ⟨rfl, by decide, trivial⟩

/-- Split within the letter, the second call is given one byte and returns two. -/
theorem second_call_returns_two :
    (outputPieces utf8 noOutput [[0xc3], [0xa9]]).2 = ([0xe9], [1, 2]) ∧
      ¬ NoneReturnsMore [[0xc3], [0xa9]] (outputPieces utf8 noOutput [[0xc3], [0xa9]]).2.2 := by
  have hrun : (outputPieces utf8 noOutput [[0xc3], [0xa9]]).2 = ([0xe9], [1, 2]) := by
    decide
  refine ⟨hrun, ?_⟩
  rw [hrun]
  intro h
  cases h with
  | cons _ hrest =>
    cases hrest with
    | cons hle _ => exact absurd hle (by decide)

end Hurd.Console
