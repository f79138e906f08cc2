import Hurd.Libbpf.Safety

/-!
# Loads from the packet

The offset of a load counts through the link-level header and then the packet data, which are in two
buffers.
-/

namespace Hurd.Bpf

/-- The load that an instruction makes: its size, and its offset in header and data. -/
def loadOf (i : BpfInsn) (s : Regs) : Option (Size × Word) :=
  match decode i.code with
  | some (.ldAbs size) => some (size, i.k)
  | some (.ldInd size) => some (size, s.X + i.k)
  | some .ldxMsh => some (.byte, i.k)
  | _ => none

/-- The number of bytes in a buffer, where the packet at hand has `dataLen` bytes of data. -/
def Call.extent (c : Call) (dataLen : Nat) : Buffer → Nat
  | .header => c.hlen.toNat
  | .packet => dataLen

def Access.Within (c : Call) (dataLen : Nat) : Access → Prop
  | .header offset => 0 ≤ offset ∧ offset < c.extent dataLen .header
  | .packet offset => 0 ≤ offset ∧ offset < c.extent dataLen .packet
  | .scratch _ | .divisor _ => True

/-- The instruction that runs in `s` reads bytes of the header and of the data only, and ends the
run with 0 when it is a load past the end of the data. -/
def LoadSafe (f : Filter) (c : Call) (dataLen : Nat) (s : Regs) : Prop :=
  f.Runs s →
    (∀ a ∈ (exec c (f.insn s.pc) s).accesses, a.Within c dataLen) ∧
      ∀ size k, loadOf (f.insn s.pc) s = some (size, k) →
        c.hlen.toNat + dataLen < k.toNat + size.bytes → filterRound f c s = .stop ⟨0, s.entp, none⟩

/-- The end of the load is computed without wrapping, and the load is inside the header, or past
the end of both the header and the largest packet, or inside the data of this packet. -/
def LoadFits (c : Call) (dataLen : Nat) (size : Size) (k : Word) : Prop :=
  (size = .byte ∨ k.toNat + size.bytes < 2 ^ c.sizeBits) ∧
    (k.toNat + size.bytes ≤ c.hlen.toNat ∧ k.toNat < 2 ^ 31 ∨
      c.hlen.toNat < k.toNat + size.bytes ∧ netRcvMax.toNat < k.toNat + size.bytes ∨
      c.hlen.toNat ≤ k.toNat ∧ k.toNat + size.bytes ≤ c.hlen.toNat + dataLen)

theorem Size.bytes_pos (size : Size) : 0 < size.bytes := by
  cases size <;> decide

theorem Size.bytes_le (size : Size) : size.bytes ≤ 4 := by
  cases size <;> decide

theorem below_iff {c : Call} {size : Size} {k bound : Word}
    (h : size = .byte ∨ k.toNat + size.bytes < 2 ^ c.sizeBits) :
    c.below size k bound = true ↔ k.toNat + size.bytes ≤ bound.toNat := by
  cases size with
  | byte =>
    simp only [Call.below, Size.bytes, decide_eq_true_eq]
    omega
  | word | half =>
    have hlt := h.resolve_left (by simp)
    simp only [Call.below, decide_eq_true_eq]
    rw [Nat.mod_eq_of_lt hlt]

theorem below_of_wrap {c : Call} {size : Size} {k bound : Word} (hsize : size ≠ .byte)
    (h : 2 ^ c.sizeBits ≤ k.toNat + size.bytes) :
    c.below size k bound = true ↔ k.toNat + size.bytes ≤ 2 ^ 32 + bound.toNat := by
  have hk := k.isLt
  have hle := size.bytes_le
  have hbits : c.sizeBits = 32 := by
    have hlt : 2 ^ c.sizeBits < 2 ^ 33 := by omega
    have := (Nat.pow_lt_pow_iff_right (by decide)).mp hlt
    have := c.le_sizeBits
    omega
  rw [hbits] at h
  have hmod : (k.toNat + size.bytes) % 2 ^ 32 = k.toNat + size.bytes - 2 ^ 32 := by omega
  cases size with
  | byte => exact absurd rfl hsize
  | word | half =>
    simp only [Call.below, hbits, decide_eq_true_eq]
    omega

theorem locate_none {c : Call} {size : Size} {k : Word}
    (h : size = .byte ∨ k.toNat + size.bytes < 2 ^ c.sizeBits)
    (hhdr : c.hlen.toNat < k.toNat + size.bytes)
    (hmax : netRcvMax.toNat < k.toNat + size.bytes) : c.locate size k = none := by
  rw [Call.locate, if_neg, if_neg]
  · rw [below_iff h]
    omega
  · rw [below_iff h]
    omega

theorem locate_header {c : Call} {size : Size} {k : Word}
    (h : size = .byte ∨ k.toNat + size.bytes < 2 ^ c.sizeBits)
    (hhdr : k.toNat + size.bytes ≤ c.hlen.toNat) :
    c.locate size k = some (.header, k.toInt) := by
  rw [Call.locate, if_pos ((below_iff h).mpr hhdr)]

theorem locate_packet {c : Call} {size : Size} {k : Word}
    (h : size = .byte ∨ k.toNat + size.bytes < 2 ^ c.sizeBits)
    (hhdr : c.hlen.toNat < k.toNat + size.bytes)
    (hmax : k.toNat + size.bytes ≤ netRcvMax.toNat) :
    c.locate size k = some (.packet, (k.toNat : Int) - c.hlen.toNat) := by
  have hle := size.bytes_le
  have hoff : (k - c.hlen).toInt = (k.toNat : Int) - c.hlen.toNat := by
    have hk : netRcvMax.toNat = 4095 := rfl
    rw [BitVec.toInt_eq_toNat_cond, BitVec.toNat_sub]
    split_ifs <;> omega
  rw [Call.locate, if_neg, if_pos ((below_iff h).mpr hmax), hoff]
  rw [below_iff h]
  omega

theorem locate_wrap {c : Call} {size : Size} {k : Word} (hsize : size ≠ .byte)
    (h : 2 ^ c.sizeBits ≤ k.toNat + size.bytes) :
    ∃ data offset, c.locate size k = some (data, offset) ∧ offset < 0 := by
  have hk := k.isLt
  have hle := size.bytes_le
  have hbits := Nat.pow_le_pow_right (by decide : 0 < 2) c.le_sizeBits
  by_cases hhdr : c.below size k c.hlen = true
  · refine ⟨.header, k.toInt, by rw [Call.locate, if_pos hhdr], ?_⟩
    rw [BitVec.toInt_eq_toNat_cond]
    split_ifs <;> omega
  · have hpacket : c.below size k netRcvMax = true := by
      rw [below_of_wrap hsize h, show netRcvMax.toNat = 4095 from rfl]
      omega
    refine ⟨.packet, (k - c.hlen).toInt, by rw [Call.locate, if_neg hhdr, if_pos hpacket], ?_⟩
    rw [below_of_wrap hsize h] at hhdr
    rw [BitVec.toInt_eq_toNat_cond, BitVec.toNat_sub]
    split_ifs <;> omega

theorem within_loadAccesses {c : Call} {dataLen : Nat} {size : Size} {data : Buffer} {k : Int} :
    (∀ a ∈ loadAccesses size data k, a.Within c dataLen) ↔
      0 ≤ k ∧ k + size.bytes ≤ c.extent dataLen data := by
  have hpos := size.bytes_pos
  have hwithin : ∀ j : Int, (data.access j).Within c dataLen ↔
      0 ≤ j ∧ j < c.extent dataLen data := by
    intro j
    cases data <;> rfl
  simp only [loadAccesses, List.forall_mem_map, List.mem_range, hwithin]
  constructor
  · intro h
    have hfirst := h 0 hpos
    have hlast := h (size.bytes - 1) (by omega)
    omega
  · intro h j hj
    omega

/-- The load at offset `k` reads bytes of the buffers only. -/
def Located (c : Call) (dataLen : Nat) (size : Size) (k : Word) : Prop :=
  ∀ data offset, c.locate size k = some (data, offset) →
    0 ≤ offset ∧ offset + size.bytes ≤ c.extent dataLen data

theorem located_of_loadFits {c : Call} {dataLen : Nat} {size : Size} {k : Word}
    (h : LoadFits c dataLen size k) :
    Located c dataLen size k ∧
      (c.hlen.toNat + dataLen < k.toNat + size.bytes → c.locate size k = none) := by
  obtain ⟨hwrap, ⟨hhdr, hk⟩ | ⟨hhdr, hmax⟩ | ⟨hdata, hend⟩⟩ := h
  · have hloc := locate_header hwrap hhdr
    have hoff : k.toInt = k.toNat := BitVec.toInt_eq_toNat_of_lt (by omega)
    refine ⟨?_, fun hout => by omega⟩
    intro data offset h
    cases hloc.symm.trans h
    simp only [hoff, Call.extent]
    omega
  · have hloc := locate_none hwrap hhdr hmax
    refine ⟨?_, fun _ => hloc⟩
    intro data offset h
    rw [hloc] at h
    cases h
  · refine ⟨?_, fun hout => by omega⟩
    intro data offset h
    have hpos := size.bytes_pos
    rcases Nat.lt_or_ge netRcvMax.toNat (k.toNat + size.bytes) with hmax | hmax
    · cases (locate_none hwrap (by omega) hmax).symm.trans h
    · cases (locate_packet hwrap (by omega) hmax).symm.trans h
      simp only [Call.extent]
      omega

theorem loadFits_of_located {c : Call} {dataLen : Nat} {size : Size} {k : Word}
    (h : Located c dataLen size k) : LoadFits c dataLen size k := by
  by_cases hwrap : size = .byte ∨ k.toNat + size.bytes < 2 ^ c.sizeBits
  · refine ⟨hwrap, ?_⟩
    rcases Nat.lt_or_ge c.hlen.toNat (k.toNat + size.bytes) with hhdr | hhdr
    · rcases Nat.lt_or_ge netRcvMax.toNat (k.toNat + size.bytes) with hmax | hmax
      · exact .inr (.inl ⟨hhdr, hmax⟩)
      · have hin := h _ _ (locate_packet hwrap hhdr hmax)
        simp only [Call.extent] at hin
        exact .inr (.inr ⟨by omega, by omega⟩)
    · have hin := (h _ _ (locate_header hwrap hhdr)).1
      rw [BitVec.toInt_eq_toNat_cond] at hin
      have hk := k.isLt
      exact .inl ⟨hhdr, by split_ifs at hin <;> omega⟩
  · simp only [not_or, Nat.not_lt] at hwrap
    obtain ⟨data, offset, hloc, hneg⟩ := locate_wrap hwrap.1 hwrap.2
    have hin := h data offset hloc
    omega

theorem exec_of_loadOf {i : BpfInsn} {s : Regs} {size : Size} {k : Word}
    (h : loadOf i s = some (size, k)) (c : Call) :
    ∃ use, exec c i s = load c size k s use := by
  unfold loadOf at h
  split at h
  · rename_i hdec
    cases h
    exact ⟨fun v => { s with A := v }, exec_of_code _ (decode_eq_some.mp hdec) c s⟩
  · rename_i hdec
    cases h
    exact ⟨fun v => { s with A := v }, exec_of_code _ (decode_eq_some.mp hdec) c s⟩
  · rename_i hdec
    cases h
    exact ⟨fun v => { s with X := (v &&& 0xf) <<< 2 },
      exec_of_code _ (decode_eq_some.mp hdec) c s⟩
  · cases h

theorem within_of_not_load {c : Call} {dataLen : Nat} {i : BpfInsn} {s : Regs} {a : Access}
    (h : loadOf i s = none) (ha : a ∈ (exec c i s).accesses) : a.Within c dataLen := by
  cases exec_accesses ha with
  | direct | key | constant | index => trivial
  | load op data offset hcode hloads =>
    rw [loadOf, decode_eq_some.mpr hcode] at h
    cases op <;> simp [Opcode.Loads] at hloads h

theorem loadSafe_iff {f : Filter} {c : Call} {dataLen : Nat} {s : Regs} (hrun : f.Runs s) :
    LoadSafe f c dataLen s ↔
      ∀ size k, loadOf (f.insn s.pc) s = some (size, k) → LoadFits c dataLen size k := by
  constructor
  · intro hsafe size k hload
    obtain ⟨use, hexec⟩ := exec_of_loadOf hload c
    apply loadFits_of_located
    intro data offset hloc
    have hacc := (hsafe hrun).1
    rw [hexec, load, hloc] at hacc
    exact within_loadAccesses.mp hacc
  · intro hfits _
    cases hload : loadOf (f.insn s.pc) s with
    | none => exact ⟨fun a ha => within_of_not_load hload ha, fun _ _ h => by cases h⟩
    | some l =>
      obtain ⟨use, hexec⟩ := exec_of_loadOf hload c
      obtain ⟨hin, hnone⟩ := located_of_loadFits (hfits l.1 l.2 hload)
      constructor
      · rw [hexec, load]
        cases hloc : c.locate l.1 l.2 with
        | none => simp
        | some d => exact within_loadAccesses.mpr (hin d.1 d.2 hloc)
      · intro size k hl hout
        cases hl
        rw [filterRound, if_pos hrun, hexec, load, hnone hout]
        rfl

/-- The loads of a run read bytes of the header and of the packet data only, and a load that does
not fit makes the filter return 0, exactly when every load that the run makes fits. -/
theorem bpf_loads_inside (f : Filter) (c : Call) (dataLen : Nat) (a x : Word) (mem : Int → Word) :
    (∀ s, Visited f c (enter a x mem) s → LoadSafe f c dataLen s) ↔
      ∀ s, Visited f c (enter a x mem) s → f.Runs s →
        ∀ size k, loadOf (f.insn s.pc) s = some (size, k) → LoadFits c dataLen size k := by
  constructor
  · intro hsafe s hs hrun
    exact (loadSafe_iff hrun).mp (hsafe s hs)
  · intro hfits s hs hrun
    exact (loadSafe_iff hrun).mpr (hfits s hs hrun) hrun

/-- The half-word at the end of an Ethernet header of 14 bytes. -/
def straddleProgram : Filter :=
  program [beginIn, bpfStmt (bpfLd ||| bpfH ||| bpfAbs) 13, bpfStmt (bpfRet ||| bpfA) 0] (by decide)

/-- A byte far behind the data of a short packet. -/
def overrunProgram : Filter :=
  program [beginIn, bpfStmt (bpfLd ||| bpfB ||| bpfAbs) 1000, bpfStmt (bpfRet ||| bpfA) 0]
    (by decide)

theorem bpf_loads_outside :
    ((bpfValidate straddleProgram none).1 = 1 ∧
      ∃ s, Visited straddleProgram etherCall (enter 0 0 zeroMem) s ∧
        ¬LoadSafe straddleProgram etherCall 60 s) ∧
    (bpfValidate overrunProgram none).1 = 1 ∧
      ∃ s, Visited overrunProgram etherCall (enter 0 0 zeroMem) s ∧
        ¬LoadSafe overrunProgram etherCall 60 s := by
  refine ⟨⟨by decide, enter 0 0 zeroMem, .here, ?_⟩, by decide, enter 0 0 zeroMem, .here, ?_⟩
  · intro hsafe
    have hin := (hsafe (by decide)).1 (.packet (-1)) (by decide)
    exact absurd hin.1 (by decide)
  · intro hsafe
    have hin := (hsafe (by decide)).1 (.packet 986) (by decide)
    exact absurd hin.2 (by decide)

end Hurd.Bpf
