import Hurd.Framework.ByteMemory

/-!
# Packet buffers

The buffer of a packet of `libpipe/pq.c`: how `packet_write` makes room in it, by sliding its
contents, extending it or moving it, and how `packet_read` takes bytes out of it, by copying them
or by handing the pages that they are on to the reader.

Pointers are addresses. A packet comes with the memory of its own buffer; where an operation
accesses anything outside of it, or deallocates pages of a buffer from `malloc`, there is no
result.
-/

namespace Hurd.PacketQueue

open ByteMemory Option

/-- `vm_page_size`, by its logarithm. -/
structure PageSize where
  log : Nat

namespace PageSize

variable (z : PageSize)

def bytes : Nat := 2 ^ z.log

def trunc (a : Nat) : Nat := a / z.bytes * z.bytes

def round (a : Nat) : Nat := (a + (z.bytes - 1)) / z.bytes * z.bytes

variable {z} {a b : Nat}

theorem bytes_pos : 0 < z.bytes := Nat.two_pow_pos z.log

theorem dvd_trunc : z.bytes ∣ z.trunc a := Dvd.intro_left _ rfl

theorem dvd_round : z.bytes ∣ z.round a := Dvd.intro_left _ rfl

theorem trunc_le : z.trunc a ≤ a := Nat.div_mul_le_self a z.bytes

theorem lt_trunc_add : a < z.trunc a + z.bytes := Nat.lt_div_mul_add z.bytes_pos

theorem le_round : a ≤ z.round a := by
  have hlt : a + (z.bytes - 1) < z.trunc (a + (z.bytes - 1)) + z.bytes := lt_trunc_add
  have hpos := z.bytes_pos
  have heq : z.round a = z.trunc (a + (z.bytes - 1)) := rfl
  omega

theorem le_trunc (hab : b ≤ a) (hb : z.bytes ∣ b) : b ≤ z.trunc a := by
  obtain ⟨k, rfl⟩ := hb
  rw [trunc, Nat.mul_comm]
  apply Nat.mul_le_mul_right
  exact (Nat.le_div_iff_mul_le z.bytes_pos).mpr (Nat.mul_comm .. ▸ hab)

theorem round_le (hab : a ≤ b) (hb : z.bytes ∣ b) : z.round a ≤ b := by
  obtain ⟨k, rfl⟩ := hb
  have hpos := z.bytes_pos
  rw [round, Nat.mul_comm z.bytes k]
  apply Nat.mul_le_mul_right
  apply Nat.le_of_lt_succ
  rw [Nat.div_lt_iff_lt_mul hpos, Nat.succ_mul, Nat.mul_comm k]
  omega

end PageSize

def packetSizeLarge : Nat := 8192

/-- `struct packet`, for a packet of data. -/
structure Packet where
  source : Option Nat
  buf : Nat
  bufLen : Nat
  bufStart : Nat
  bufEnd : Nat
  bufVmAlloced : Bool
  mem : ByteMemory

/-- What one request for memory gets: whether the pages behind a buffer are free, a region from
`malloc` or `realloc`, the first page of a region from `mmap`, and what the new region contains. -/
structure Allocation where
  inPlace : Bool
  malloc : Nat
  page : Nat
  mem : ByteMemory

namespace Packet

variable (z : PageSize) (m : Allocation) (p : Packet)

/-- The `n` bytes at `a` are in the buffer. -/
def has (a n : Nat) : Bool := n = 0 || (p.buf ≤ a && a + n ≤ p.buf + p.bufLen)

def readable : Nat := p.bufEnd - p.bufStart

/-- What has been written to the packet and not been read. -/
def data : List UInt8 := load p.mem p.bufStart p.readable

end Packet

section Operations

variable (z : PageSize) (m : Allocation) (p : Packet)

def packetNewSize (extra : Nat) : Nat :=
  let newLen := p.bufEnd - p.buf + extra
  if p.bufVmAlloced ∨ packetSizeLarge ≤ newLen then z.round newLen
  else (newLen + 511) / 512 * 512

/-- `packet_extend`, or `none` when it returns false. -/
def packetExtend (newLen : Nat) : Option Packet :=
  if p.bufLen = 0 then none
  else if p.bufVmAlloced then if m.inPlace then some { p with bufLen := newLen } else none
  else if packetSizeLarge ≤ newLen then none
  else
    some { p with
      buf := m.malloc
      bufLen := newLen
      bufStart := m.malloc + (p.bufStart - p.buf)
      bufEnd := m.malloc + (p.bufEnd - p.buf)
      mem := store m.mem m.malloc (load p.mem p.buf p.bufLen) }

def packetRealloc (newLen : Nat) : Option Packet :=
  let vmAlloc : Bool := packetSizeLarge ≤ newLen
  let newBuf := if vmAlloc then m.page * z.bytes else m.malloc
  if p.has p.bufStart p.readable then
    some { p with
      buf := newBuf
      bufLen := newLen
      bufVmAlloced := vmAlloc
      bufStart := newBuf
      bufEnd := newBuf + p.readable
      mem := store m.mem newBuf p.data }
  else none

def packetFit (amount : Nat) : Option (Packet × Bool) :=
  let left := p.buf + p.bufLen - p.bufEnd
  if left < amount then
    let curLen := p.readable
    if amount ≤ p.bufLen - curLen ∧ curLen < packetSizeLarge ∧ curLen < p.bufLen / 4 then
      if p.has p.bufStart curLen then
        some ({ p with
          bufStart := p.buf
          bufEnd := p.buf + curLen
          mem := move p.mem p.buf p.bufStart curLen }, true)
      else none
    else some (p, false)
  else some (p, true)

def packetEnsure (amount : Nat) : Option Packet :=
  (packetFit p amount).bind fun (p, fits) =>
    if fits then some p
    else
      let newLen := packetNewSize z p amount
      (packetExtend m p newLen).elim (packetRealloc z m p newLen) some

/-- `packet_ensure_efficiently`. It returns false where the data fits as it is. -/
def packetEnsureEfficiently (amount : Nat) : Option (Packet × Bool) :=
  (packetFit p amount).bind fun (p, fits) =>
    if fits then some (p, false)
    else
      let newLen := packetNewSize z p amount
      match packetExtend m p newLen with
      | some p => some (p, true)
      | none =>
          if p.readable < packetSizeLarge then (packetRealloc z m p newLen).map fun p => (p, true)
          else some (p, false)

def packetWrite (data : List UInt8) : Option Packet :=
  (packetEnsure z m p data.length).bind fun p =>
    if p.has p.bufEnd data.length then
      some { p with
        bufEnd := p.bufEnd + data.length
        mem := store p.mem p.bufEnd data }
    else none

/-- The end of `packet_fetch` that hands the pages of the buffer to the reader. The pages before
them are deallocated. -/
def fetchPages (amount : Nat) : Option (Packet × List UInt8) :=
  let start := p.bufStart + amount
  if start < p.bufEnd then
    -- what follows the last page boundary stays in the packet
    let taken := amount - (start - z.trunc start)
    let start := z.trunc start
    if p.has p.bufStart taken then
      some ({ p with buf := start, bufStart := start, bufLen := p.bufLen - (start - p.buf) },
        load p.mem p.bufStart taken)
    else none
  else
    let start := z.round start
    if p.has p.bufStart amount then
      some ({ p with
          buf := start
          bufStart := start
          bufEnd := start
          bufLen := p.bufLen - (start - p.buf) }, load p.mem p.bufStart amount)
    else none

/-- The end of `packet_fetch` that copies. -/
def fetchCopy (amount : Nat) (remove : Bool) : Option (Packet × List UInt8) :=
  let start := p.bufStart + amount
  if p.has p.bufStart amount then
    let bytes := load p.mem p.bufStart amount
    if remove ∧ 2 * packetSizeLarge < start - p.buf then
      -- only pages can be deallocated
      if p.bufVmAlloced then
        let dealloc := z.trunc start - p.buf
        some ({ p with
          buf := p.buf + dealloc
          bufLen := p.bufLen - dealloc
          bufStart := start }, bytes)
      else none
    else some (if remove then { p with bufStart := start } else p, bytes)
  else none

def packetFetch (amount : Nat) (remove : Bool) : Option (Packet × List UInt8) :=
  let amount := min amount p.readable
  if amount = 0 then some (p, [])
  else if remove ∧ p.bufVmAlloced ∧ z.bytes ≤ amount then fetchPages z p amount
  else fetchCopy z p amount remove

def packetRead (amount : Nat) : Option (Packet × List UInt8) := packetFetch z p amount true

def packetPeek (amount : Nat) : Option (Packet × List UInt8) := packetFetch z p amount false

end Operations

/-- Where the data is in the buffer. A buffer of pages starts at a page, and it is made of whole
pages unless it is shorter than one; a buffer from `malloc` is not large. -/
structure Packet.Ok (z : PageSize) (p : Packet) : Prop where
  buf_le : p.buf ≤ p.bufStart
  start_le : p.bufStart ≤ p.bufEnd
  end_le : p.bufEnd ≤ p.buf + p.bufLen
  aligned : p.bufVmAlloced = true → z.bytes ∣ p.buf
  pages : p.bufVmAlloced = true → z.bytes ∣ p.bufLen ∨ p.bufLen < z.bytes
  small : p.bufVmAlloced = false → p.bufLen < packetSizeLarge

variable {z : PageSize} {m : Allocation} {p q : Packet} {n amount : Nat}

theorem Packet.readable_add (h : p.Ok z) : p.bufStart + p.readable = p.bufEnd := by
  have hle := h.start_le
  rw [readable]
  omega

theorem Packet.Ok.has_data (h : p.Ok z) : p.has p.bufStart p.readable = true := by
  have hlow := h.buf_le
  have hhigh := h.end_le
  have hdata := p.readable_add h
  simp only [has, Bool.or_eq_true, Bool.and_eq_true, decide_eq_true_eq]
  omega

@[simp]
theorem Packet.data_length (p : Packet) : p.data.length = p.readable := load_length ..

theorem PageSize.large_pages (z : PageSize) :
    z.bytes ∣ packetSizeLarge ∨ packetSizeLarge < z.bytes := by
  have hlarge : packetSizeLarge = 2 ^ 13 := rfl
  rw [hlarge, bytes]
  by_cases h : z.log ≤ 13
  · exact .inl (Nat.pow_dvd_pow 2 h)
  · exact .inr (Nat.pow_lt_pow_right (by decide) (by omega))

/-- `q` has the data of `p` and room for `n` more bytes. -/
structure MakesRoom (z : PageSize) (p : Packet) (n : Nat) (q : Packet) : Prop where
  ok : q.Ok z
  data : q.data = p.data
  source : q.source = p.source
  room : q.bufEnd + n ≤ q.buf + q.bufLen

theorem le_packetNewSize : p.bufEnd - p.buf + n ≤ packetNewSize z p n := by
  simp only [packetNewSize]
  split
  · exact PageSize.le_round
  · omega

theorem packetNewSize_pages (hlarge : packetSizeLarge ≤ packetNewSize z p n) :
    z.bytes ∣ packetNewSize z p n ∨ packetNewSize z p n < z.bytes := by
  simp only [packetNewSize] at hlarge ⊢
  split at hlarge
  · next h =>
      rw [if_pos h]
      exact .inl PageSize.dvd_round
  · next h =>
      rw [if_neg h]
      have hsmall : p.bufEnd - p.buf + n < packetSizeLarge := by omega
      have heq : (p.bufEnd - p.buf + n + 511) / 512 * 512 = packetSizeLarge := by
        rw [packetSizeLarge] at hlarge hsmall ⊢
        omega
      rw [heq]
      exact z.large_pages

theorem packetNewSize_dvd (hvm : p.bufVmAlloced = true) : z.bytes ∣ packetNewSize z p n := by
  simp only [packetNewSize, hvm, true_or, if_true]
  exact PageSize.dvd_round

theorem packetExtend_room (h : p.Ok z) (hq : packetExtend m p (packetNewSize z p n) = some q) :
    MakesRoom z p n q := by
  have hsize : p.bufEnd - p.buf + n ≤ packetNewSize z p n := le_packetNewSize
  have hbuf := h.buf_le
  have hstart := h.start_le
  have hend := h.end_le
  simp only [packetExtend] at hq
  split at hq
  · cases hq
  split at hq
  · next hvm =>
      split at hq
      · cases hq
        exact
          { ok :=
              { buf_le := hbuf
                start_le := hstart
                end_le := by simp only; omega
                aligned := h.aligned
                pages := fun _ => .inl (packetNewSize_dvd hvm)
                small := fun hno => by rw [hvm] at hno; cases hno }
            data := rfl
            source := rfl
            room := by simp only; omega }
      · cases hq
  split at hq
  · cases hq
  · next hvm hsmall =>
      cases hq
      have hcopied : Copied p.readable p.mem p.bufStart
          (store m.mem m.malloc (load p.mem p.buf p.bufLen))
          (m.malloc + (p.bufStart - p.buf)) := by
        intro i hi
        have hdata := p.readable_add h
        have hlt : p.bufStart - p.buf + i < p.bufLen := by omega
        have hat := store_apply (m := m.mem) (a := m.malloc)
          (l := load p.mem p.buf p.bufLen) (k := p.bufStart - p.buf + i) (by simpa using hlt)
        rw [Nat.add_assoc, hat, load_getD hlt]
        congr 1
        omega
      exact
        { ok :=
            { buf_le := by simp only; omega
              start_le := by simp only; omega
              end_le := by simp only; omega
              aligned := fun hyes => absurd hyes hvm
              pages := fun hyes => absurd hyes hvm
              small := fun _ => by simp only; omega }
          data := by
            have hlen : m.malloc + (p.bufEnd - p.buf) - (m.malloc + (p.bufStart - p.buf)) =
                p.readable := by
              rw [Packet.readable]
              omega
            simp only [Packet.data, Packet.readable, hlen]
            exact load_copied hcopied
          source := rfl
          room := by simp only; omega }

theorem packetRealloc_room (h : p.Ok z) :
    ∃ q, packetRealloc z m p (packetNewSize z p n) = some q ∧ MakesRoom z p n q := by
  have hsize : p.bufEnd - p.buf + n ≤ packetNewSize z p n := le_packetNewSize
  have hbuf := h.buf_le
  have hdata := p.readable_add h
  simp only [packetRealloc, h.has_data, if_true]
  refine ⟨_, rfl, ?_⟩
  exact
    { ok :=
        { buf_le := le_rfl
          start_le := Nat.le_add_right ..
          end_le := by simp only; omega
          aligned := fun hvm => by
            rw [if_pos hvm]
            exact Nat.dvd_mul_left ..
          pages := fun hvm => packetNewSize_pages (of_decide_eq_true hvm)
          small := fun hno => Nat.lt_of_not_le (of_decide_eq_false hno) }
      data := by
        simp only [Packet.data, Packet.readable, Nat.add_sub_cancel_left]
        exact (p.data_length ▸ load_store m.mem _ p.data :)
      source := rfl
      room := by simp only; omega }

theorem packetFit_spec (h : p.Ok z) (n : Nat) :
    packetFit p n = some (p, false) ∨
      ∃ q, packetFit p n = some (q, true) ∧ MakesRoom z p n q := by
  have hbuf := h.buf_le
  have hstart := h.start_le
  have hend := h.end_le
  have hdata := p.readable_add h
  simp only [packetFit]
  by_cases hleft : p.buf + p.bufLen - p.bufEnd < n
  · rw [if_pos hleft]
    by_cases hslide : n ≤ p.bufLen - p.readable ∧ p.readable < packetSizeLarge ∧
        p.readable < p.bufLen / 4
    · rw [if_pos hslide, if_pos h.has_data]
      refine .inr ⟨_, rfl, ?_⟩
      exact
        { ok :=
            { buf_le := le_rfl
              start_le := Nat.le_add_right ..
              end_le := by simp only; omega
              aligned := h.aligned
              pages := h.pages
              small := h.small }
          data := by
            simp only [Packet.data, Packet.readable, Nat.add_sub_cancel_left]
            exact load_copied move_copied
          source := rfl
          room := by simp only; omega }
    · rw [if_neg hslide]
      exact .inl rfl
  · rw [if_neg hleft]
    exact .inr ⟨p, rfl, h, rfl, rfl, by omega⟩

theorem packetEnsure_spec (h : p.Ok z) (n : Nat) :
    ∃ q, packetEnsure z m p n = some q ∧ MakesRoom z p n q := by
  rw [packetEnsure]
  obtain hfit | ⟨q, hfit, hroom⟩ := packetFit_spec h n
  · simp only [hfit, bind_some, Bool.false_eq_true, if_false]
    cases hextend : packetExtend m p (packetNewSize z p n) with
    | none => exact packetRealloc_room h
    | some q => exact ⟨q, rfl, packetExtend_room h hextend⟩
  · exact ⟨q, by rw [hfit]; rfl, hroom⟩

theorem packetEnsureEfficiently_spec (h : p.Ok z) (n : Nat) :
    ∃ q fits, packetEnsureEfficiently z m p n = some (q, fits) ∧ q.Ok z ∧ q.data = p.data := by
  rw [packetEnsureEfficiently]
  obtain hfit | ⟨q, hfit, hroom⟩ := packetFit_spec h n
  · simp only [hfit, bind_some, Bool.false_eq_true, if_false]
    cases hextend : packetExtend m p (packetNewSize z p n) with
    | some q =>
      have hroom := packetExtend_room h hextend
      exact ⟨q, true, rfl, hroom.ok, hroom.data⟩
    | none =>
      simp only
      split
      · obtain ⟨q, hq, hroom⟩ := packetRealloc_room (m := m) (n := n) h
        exact ⟨q, true, by rw [hq]; rfl, hroom.ok, hroom.data⟩
      · exact ⟨p, false, rfl, h, rfl⟩
  · exact ⟨q, false, by rw [hfit]; rfl, hroom.ok, hroom.data⟩

theorem packetWrite_spec (h : p.Ok z) (bytes : List UInt8) :
    ∃ q, packetWrite z m p bytes = some q ∧ q.Ok z ∧ q.data = p.data ++ bytes := by
  obtain ⟨r, hr, hroom⟩ := packetEnsure_spec (m := m) h bytes.length
  have hok := hroom.ok
  have hdata := r.readable_add hok
  have hbuf := hok.buf_le
  have hend := hroom.room
  have hhas : r.has r.bufEnd bytes.length = true := by
    simp only [Packet.has, Bool.or_eq_true, Bool.and_eq_true, decide_eq_true_eq]
    omega
  rw [packetWrite, hr, bind_some, if_pos hhas]
  refine ⟨_, rfl, ?_, ?_⟩
  · exact
      { buf_le := hbuf
        start_le := by simp only; omega
        end_le := hend
        aligned := hok.aligned
        pages := hok.pages
        small := hok.small }
  · have hlen : r.bufEnd + bytes.length - r.bufStart = r.readable + bytes.length := by omega
    have hold : load (store r.mem r.bufEnd bytes) r.bufStart r.readable = r.data :=
      load_copied (store_changed.copied (.inl (by omega)))
    simp only [Packet.data, Packet.readable] at hlen ⊢
    rw [hlen, load_add, ← Packet.readable, hdata, hold, load_store, hroom.data]
    rfl

/-- `d` has been taken from the front of the data of `p`. -/
structure Takes (z : PageSize) (p : Packet) (amount : Nat) (q : Packet) (d : List UInt8) : Prop where
  ok : q.Ok z
  data : p.data = d ++ q.data
  length : d.length ≤ amount

theorem Packet.data_split {k : Nat} (hk : k ≤ p.readable) :
    p.data = load p.mem p.bufStart k ++ load p.mem (p.bufStart + k) (p.readable - k) := by
  rw [data, ← load_add, Nat.add_sub_cancel' hk]

theorem Packet.Ok.has_front (h : p.Ok z) {k : Nat} (hk : k ≤ p.readable) :
    p.has p.bufStart k = true := by
  have hlow := h.buf_le
  have hhigh := h.end_le
  have hdata := p.readable_add h
  simp only [has, Bool.or_eq_true, Bool.and_eq_true, decide_eq_true_eq]
  omega

theorem fetchPages_spec (h : p.Ok z) (hvm : p.bufVmAlloced = true) (hpage : z.bytes ≤ amount)
    (hle : amount ≤ p.readable) :
    ∃ q d, fetchPages z p amount = some (q, d) ∧ Takes z p amount q d := by
  have hbuf := h.buf_le
  have hend := h.end_le
  have hdata := p.readable_add h
  have halign := h.aligned hvm
  have hwhole : z.bytes ∣ p.bufLen := by
    obtain hdvd | hshort := h.pages hvm
    · exact hdvd
    · omega
  rw [fetchPages]
  by_cases hmore : p.bufStart + amount < p.bufEnd
  · -- the boundary is behind the start, as at least a page is asked for
    have hlow : z.trunc (p.bufStart + amount) ≤ p.bufStart + amount := PageSize.trunc_le
    have hhigh : p.bufStart + amount < z.trunc (p.bufStart + amount) + z.bytes :=
      PageSize.lt_trunc_add
    have hdvd : z.bytes ∣ z.trunc (p.bufStart + amount) := PageSize.dvd_trunc
    simp only [if_pos hmore]
    generalize z.trunc (p.bufStart + amount) = start at hlow hhigh hdvd ⊢
    have htaken : amount - (p.bufStart + amount - start) ≤ p.readable := by omega
    rw [if_pos (h.has_front htaken)]
    refine ⟨_, _, rfl, ?_⟩
    exact
      { ok :=
          { buf_le := le_rfl
            start_le := by simp only; omega
            end_le := by simp only; omega
            aligned := fun _ => hdvd
            pages := fun _ => .inl (Nat.dvd_sub hwhole (Nat.dvd_sub hdvd halign))
            small := fun hno => by rw [hvm] at hno; cases hno }
        data := by
          rw [p.data_split htaken]
          have hat : p.bufStart + (amount - (p.bufStart + amount - start)) = start := by omega
          have hlen : p.readable - (amount - (p.bufStart + amount - start)) =
              p.bufEnd - start := by omega
          rw [hat, hlen]
          rfl
        length := by
          rw [load_length]
          omega }
  · have hall : amount = p.readable := by omega
    have hlow : p.bufStart + amount ≤ z.round (p.bufStart + amount) := PageSize.le_round
    have hdvd : z.bytes ∣ z.round (p.bufStart + amount) := PageSize.dvd_round
    have hhigh : z.round (p.bufStart + amount) ≤ p.buf + p.bufLen :=
      PageSize.round_le (by omega) (Nat.dvd_add halign hwhole)
    simp only [if_neg hmore]
    generalize z.round (p.bufStart + amount) = start at hlow hhigh hdvd ⊢
    rw [if_pos (h.has_front hle)]
    refine ⟨_, _, rfl, ?_⟩
    exact
      { ok :=
          { buf_le := le_rfl
            start_le := le_rfl
            end_le := by simp only; omega
            aligned := fun _ => hdvd
            pages := fun _ => .inl (Nat.dvd_sub hwhole (Nat.dvd_sub hdvd halign))
            small := fun hno => by rw [hvm] at hno; cases hno }
        data := by
          simp only [Packet.data, Packet.readable, Nat.sub_self, hall]
          exact (List.append_nil _).symm
        length := by rw [load_length] }

theorem fetchCopy_spec (h : p.Ok z) (hle : amount ≤ p.readable) :
    ∃ q d, fetchCopy z p amount true = some (q, d) ∧ Takes z p amount q d := by
  have hbuf := h.buf_le
  have hend := h.end_le
  have hdata := p.readable_add h
  have htaken : load p.mem (p.bufStart + amount) (p.readable - amount) =
      load p.mem (p.bufStart + amount) (p.bufEnd - (p.bufStart + amount)) := by
    congr 1
    omega
  simp only [fetchCopy, h.has_front hle, if_true, true_and]
  by_cases hfar : 2 * packetSizeLarge < p.bufStart + amount - p.buf
  · have hvm : p.bufVmAlloced = true := by
      by_contra hno
      have hsmall := h.small (Bool.eq_false_iff.mpr hno)
      rw [packetSizeLarge] at hfar hsmall
      omega
    have halign := h.aligned hvm
    have hlow : z.trunc (p.bufStart + amount) ≤ p.bufStart + amount := PageSize.trunc_le
    have hdvd : z.bytes ∣ z.trunc (p.bufStart + amount) := PageSize.dvd_trunc
    have hhigh : p.buf ≤ z.trunc (p.bufStart + amount) := PageSize.le_trunc (by omega) halign
    simp only [if_pos hfar, if_pos hvm]
    generalize z.trunc (p.bufStart + amount) = start at hlow hdvd hhigh ⊢
    refine ⟨_, _, rfl, ?_⟩
    exact
      { ok :=
          { buf_le := by simp only; omega
            start_le := by simp only; omega
            end_le := by simp only; omega
            aligned := fun _ => by
              rw [Nat.add_sub_cancel' hhigh]
              exact hdvd
            pages := fun _ => by
              obtain hwhole | hshort := h.pages hvm
              · exact .inl (Nat.dvd_sub hwhole (Nat.dvd_sub hdvd halign))
              · exact .inr (by simp only; omega)
            small := fun hno => by rw [hvm] at hno; cases hno }
        data := by
          rw [p.data_split hle, htaken]
          rfl
        length := by rw [load_length] }
  · simp only [if_neg hfar]
    refine ⟨_, _, rfl, ?_⟩
    exact
      { ok :=
          { buf_le := by simp only; omega
            start_le := by simp only; omega
            end_le := hend
            aligned := h.aligned
            pages := h.pages
            small := h.small }
        data := by
          rw [p.data_split hle, htaken]
          rfl
        length := by rw [load_length] }

theorem packetRead_spec (h : p.Ok z) (amount : Nat) :
    ∃ q d, packetRead z p amount = some (q, d) ∧ Takes z p amount q d := by
  rw [packetRead, packetFetch]
  have hle : min amount p.readable ≤ p.readable := Nat.min_le_right ..
  have hmono : ∀ {q d}, Takes z p (min amount p.readable) q d → Takes z p amount q d :=
    fun ht => { ht with length := ht.length.trans (Nat.min_le_left ..) }
  simp only [true_and]
  split
  · exact ⟨p, [], rfl, h, rfl, Nat.zero_le _⟩
  split
  · next hvm =>
      obtain ⟨q, d, hq, ht⟩ := fetchPages_spec h hvm.1 hvm.2 hle
      exact ⟨q, d, hq, hmono ht⟩
  · obtain ⟨q, d, hq, ht⟩ := fetchCopy_spec h hle
    exact ⟨q, d, hq, hmono ht⟩

end Hurd.PacketQueue
