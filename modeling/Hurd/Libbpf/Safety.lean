import Mathlib.Data.List.GetD
import Hurd.Libbpf.Validated

/-!
# Safety and termination of accepted filters

Two guarantees that the validator is meant to give for every run of an accepted program: scratch
memory is indexed within its bounds and no division is by zero; and the run ends, with the program
counter inside the program all the time.
-/

namespace Hurd.Bpf

open List

/-- The states at the head of the loop in a run of `f` on the call `c`. -/
def Visited (f : Filter) (c : Call) (start s : Regs) : Prop :=
  Visits (filterRound f c) start s

theorem filterRound_next {f : Filter} {c : Call} {s t : Regs}
    (h : filterRound f c s = .next t) :
    f.Runs s ∧ (exec c (f.insn s.pc) s).out = .next t := by
  unfold filterRound at h
  split_ifs at h with hrun
  exact ⟨hrun, h⟩

theorem Checked.visited {f : Filter} {c : Call} {a x : Word} {mem : Int → Word} {s : Regs}
    (hf : Checked f) (hwhole : f.Whole)
    (hj : ∀ s, Visited f c (enter a x mem) s → Inside f s → JumpLands f s)
    (hs : Visited f c (enter a x mem) s) :
    Inside f s ∨ f.bytes ≤ sizeofBpfInsn ∧ ¬f.Runs s := by
  apply Visits.invariant (fun s => Inside f s ∨ f.bytes ≤ sizeofBpfInsn ∧ ¬f.Runs s) ?_ ?_ hs
  · rcases hwhole with hnone | hsome
    · exact .inr ⟨hnone, by simp only [Filter.Runs, enter]; omega⟩
    · have hlen : 2 ≤ f.len := (Nat.le_div_iff_mul_le (by decide)).mpr hsome
      exact .inl ⟨by simp [enter], by simp only [enter]; omega⟩
  · intro s t hv hinv hround
    obtain ⟨hrun, hnext⟩ := filterRound_next hround
    have hin : Inside f s := hinv.resolve_right fun h => h.2 hrun
    exact .inl (hf.inside_next hin (hj s hv hin) hnext)

/-- A filter of the given instructions, the header first, in memory that is zero around it. -/
def program (insns : List BpfInsn) (h : sizeofBpfInsn * insns.length < 2 ^ 31) : Filter where
  insn := fun i => if 0 ≤ i then insns.getD i.toNat ⟨0, 0, 0, 0⟩ else ⟨0, 0, 0, 0⟩
  bytes := sizeofBpfInsn * insns.length
  bytes_lt := h

/-- `NETF_BPF | NETF_IN`. -/
def beginIn : BpfInsn := ⟨0x401, 0, 0, 0⟩

/-- `BPF_STMT`. -/
def bpfStmt (code : BitVec 16) (k : Word) : BpfInsn := ⟨code, 0, 0, k⟩

/-- An Ethernet packet as the multiplexer hands it to a filter without match instruction. -/
def etherCall : Call where
  infp := ⟨1, 0, fun _ => []⟩
  p := fun _ => 0
  wirelen := 64
  header := fun _ => 0
  hlen := 14
  sizeBits := 32
  le_sizeBits := Nat.le_refl 32

def zeroMem : Int → Word := fun _ => 0

theorem program_insn (insns : List BpfInsn) (h : sizeofBpfInsn * insns.length < 2 ^ 31) {i : Int}
    (hcode : ((program insns h).insn i).code ≠ 0) :
    0 ≤ i ∧ (program insns h).insn i ∈ insns := by
  simp only [program] at hcode ⊢
  split_ifs at hcode ⊢ with hi
  · by_cases hlt : i.toNat < insns.length
    · rw [getD_eq_getElem _ _ hlt]
      exact ⟨hi, getElem_mem hlt⟩
    · rw [getD_eq_default _ _ (by omega)] at hcode
      exact absurd rfl hcode
  · exact absurd rfl hcode

theorem program_jump (insns : List BpfInsn) (h : sizeofBpfInsn * insns.length < 2 ^ 31) {s : Regs}
    (hk : ∀ p ∈ insns, p.code = bpfJmp ||| bpfJa → 0 ≤ p.k.toInt ∧ p.k.toInt < 2 ^ 30)
    (hrun : (program insns h).Runs s)
    (hja : ((program insns h).insn s.pc).code = bpfJmp ||| bpfJa) :
    0 ≤ s.pc ∧ 0 ≤ ((program insns h).insn s.pc).k.toInt ∧
      s.pc + 1 + ((program insns h).insn s.pc).k.toInt < 2 ^ 31 := by
  obtain ⟨hpc, hmem⟩ := program_insn insns h (i := s.pc) (by rw [hja]; decide)
  obtain ⟨hlo, hhi⟩ := hk _ hmem hja
  simp only [Filter.Runs, program, sizeofBpfInsn] at hrun h
  exact ⟨hpc, hlo, by omega⟩

def Access.Safe : Access → Prop
  | .scratch index => 0 ≤ index ∧ index < bpfMemwords
  | .divisor d => d ≠ 0
  | .header _ | .packet _ => True

/-- The instruction that runs in `s` uses scratch memory and the divider safely. -/
def StepSafe (f : Filter) (c : Call) (s : Regs) : Prop :=
  f.Runs s → ∀ a ∈ (exec c (f.insn s.pc) s).accesses, a.Safe

/-- `BPF_STX` and `BPF_LDX|BPF_MEM`, which the validator does not look at, have an index in the
range that it demands of `BPF_ST` and `BPF_LD|BPF_MEM`. -/
def IndexInRange (f : Filter) (s : Regs) : Prop :=
  f.Runs s → (f.insn s.pc).code = bpfStx ∨ (f.insn s.pc).code = bpfLdx ||| bpfMem →
    0 ≤ (f.insn s.pc).k.toInt ∧ (f.insn s.pc).k.toInt < bpfMemwords

theorem index_of_memoryRejected {p : BpfInsn} (h : memoryRejected p = false)
    (hcode : p.code = bpfSt ∨ p.code = bpfLd ||| bpfMem) :
    0 ≤ p.k.toInt ∧ p.k.toInt < bpfMemwords := by
  have hselected : (decide (bpfClass p.code = bpfSt) ||
      decide (bpfClass p.code = bpfLd) && decide (p.code &&& 0xe0 = bpfMem)) = true := by
    rcases hcode with hcode | hcode
    · rw [hcode]
      decide
    · rw [hcode]
      decide
  rw [memoryRejected, hselected, Bool.true_and] at h
  simp only [Bool.or_eq_false_iff, decide_eq_false_iff_not] at h
  omega

theorem Passed.safe {f : Filter} {i : Nat} (hp : Passed f i) {s : Regs} {a : Access}
    (hindex : (f.insn i).code = bpfStx ∨ (f.insn i).code = bpfLdx ||| bpfMem →
      0 ≤ (f.insn i).k.toInt ∧ (f.insn i).k.toInt < bpfMemwords)
    (ha : Touches (f.insn i) s a) : a.Safe := by
  cases ha with
  | direct op hop hcode =>
    simp only [mem_cons, not_mem_nil, or_false] at hop
    rcases hop with rfl | rfl | rfl | rfl
    · exact index_of_memoryRejected hp.memory (.inr hcode)
    · exact hindex (.inr hcode)
    · exact index_of_memoryRejected hp.memory (.inl hcode)
    · exact hindex (.inl hcode)
  | key j hcode hj =>
    have hkeys := hp.keys hcode
    simp only [nNetHashKeys] at hkeys
    simp only [Access.Safe, bpfMemwords]
    omega
  | constant hcode =>
    have hdiv := hp.division
    simpa [divisionRejected, hcode, Opcode.code, AluOp.code, Src.code, Access.Safe] using hdiv
  | index hx => exact hx
  | load _ data offset _ _ => cases data <;> trivial

/-- In a run whose unconditional jumps stay in the program, scratch memory and the divider are
used safely exactly when the two memory instructions that the validator passes over are. -/
theorem bpf_scratch_safe (f : Filter) (found : Option Nat) (hv : (bpfValidate f found).1 ≠ 0)
    (hwhole : f.Whole) (c : Call) (a x : Word) (mem : Int → Word)
    (hj : ∀ s, Visited f c (enter a x mem) s → JumpLands f s) :
    (∀ s, Visited f c (enter a x mem) s → StepSafe f c s) ↔
      ∀ s, Visited f c (enter a x mem) s → IndexInRange f s := by
  have hf := Checked.of_bpfValidate hv
  constructor
  · intro hsafe s hs hrun hcode
    apply hsafe s hs hrun (.scratch (f.insn s.pc).k.toInt)
    rcases hcode with hcode | hcode
    · simp [exec_of_code .stx hcode, Opcode.exec]
    · simp [exec_of_code .ldxMem hcode, Opcode.exec]
  · intro hindex s hs hrun acc hacc
    have hin : Inside f s :=
      (hf.visited hwhole (fun s hs _ => hj s hs) hs).resolve_right fun h => h.2 hrun
    obtain ⟨i, hi, hlo, hhi⟩ := hin.index
    have hpass := hf.passed i hlo hhi
    have hidx := hindex s hs hrun
    rw [hi] at hacc hidx
    exact hpass.safe hidx (exec_accesses hacc)

/-- `BPF_STX`, `BPF_LDX|BPF_MEM` and a jump over an instruction. -/
def storeInsns : List BpfInsn :=
  [beginIn, bpfStmt bpfStx 3, bpfStmt (bpfLdx ||| bpfMem) 3, bpfStmt (bpfJmp ||| bpfJa) 1,
    bpfStmt (bpfMisc ||| bpfTxa) 0, bpfStmt (bpfRet ||| bpfA) 0]

def storeProgram : Filter := program storeInsns (by decide)

theorem storeProgram_jump (s : Regs) (hrun : storeProgram.Runs s)
    (hja : (storeProgram.insn s.pc).code = bpfJmp ||| bpfJa) :
    0 ≤ s.pc ∧ 0 ≤ (storeProgram.insn s.pc).k.toInt ∧
      s.pc + 1 + (storeProgram.insn s.pc).k.toInt < 2 ^ 31 :=
  program_jump storeInsns (by decide) (by decide) hrun hja

theorem bpf_scratch_safe_store :
    (bpfValidate storeProgram none).1 = 1 ∧
      ∀ s, Visited storeProgram etherCall (enter 0 5 zeroMem) s →
        StepSafe storeProgram etherCall s := by
  have hv : (bpfValidate storeProgram none).1 = 1 := by decide
  have hjump : ∀ s, JumpLands storeProgram s := by
    intro s hrun hja
    obtain ⟨hpc, hk, hlt⟩ := storeProgram_jump s hrun hja
    exact ⟨by omega, hlt⟩
  have hindex : ∀ s, IndexInRange storeProgram s := by
    intro s _ hcode
    have hne : (storeProgram.insn s.pc).code ≠ 0 := by
      rcases hcode with hcode | hcode
      · rw [hcode]
        decide
      · rw [hcode]
        decide
    have hmem : storeProgram.insn s.pc ∈ storeInsns := (program_insn storeInsns (by decide) hne).2
    have hall : ∀ p ∈ storeInsns, p.code = bpfStx ∨ p.code = bpfLdx ||| bpfMem →
        0 ≤ p.k.toInt ∧ p.k.toInt < bpfMemwords := by decide
    exact hall _ hmem hcode
  exact ⟨hv, (bpf_scratch_safe storeProgram none (by rw [hv]; decide) (by decide) etherCall 0 5
    zeroMem fun s _ => hjump s).mpr fun s _ => hindex s⟩

/-- `BPF_STX` to the word behind the scratch memory. -/
def strayStoreProgram : Filter :=
  program [beginIn, bpfStmt bpfStx 16, bpfStmt (bpfRet ||| bpfK) 0] (by decide)

theorem bpf_stx_out_of_range :
    (bpfValidate strayStoreProgram none).1 = 1 ∧
      ∃ s, Visited strayStoreProgram etherCall (enter 0 0 zeroMem) s ∧
        ¬StepSafe strayStoreProgram etherCall s := by
  refine ⟨by decide, enter 0 0 zeroMem, .here, ?_⟩
  intro hsafe
  have hacc := hsafe (by decide) (.scratch 16) (by decide)
  exact absurd hacc.2 (by decide)

/-- The unconditional jumps of the run go forward, and their targets are computed without
overflow. -/
def JumpForward (f : Filter) (s : Regs) : Prop :=
  f.Runs s → (f.insn s.pc).code = bpfJmp ||| bpfJa →
    0 ≤ (f.insn s.pc).k.toInt ∧ s.pc + 1 + (f.insn s.pc).k.toInt < 2 ^ 31

theorem JumpForward.lands {f : Filter} {s : Regs} (h : JumpForward f s) (hs : Inside f s) :
    JumpLands f s := by
  intro hrun hja
  obtain ⟨hk, hlt⟩ := h hrun hja
  have hpc := hs.1
  exact ⟨by omega, hlt⟩

theorem JumpForward.pc_lt {f : Filter} {c : Call} {s t : Regs} (h : JumpForward f s)
    (hround : filterRound f c s = .next t) : s.pc < t.pc := by
  obtain ⟨hrun, hnext⟩ := filterRound_next hround
  have hcont := (exec_next hnext).2
  generalize t.pc = pc' at hcont
  cases hcont with
  | falls => omega
  | jumps hja =>
    have hk := (h hrun hja).1
    omega
  | branches taken _ _ _ => omega

/-- A run whose unconditional jumps go forward returns after at most `len` rounds. Its program
counter is inside the program in every round, the last one included, if there is an instruction
to run. -/
theorem bpf_terminates_inside (f : Filter) (found : Option Nat)
    (hv : (bpfValidate f found).1 ≠ 0) (hwhole : f.Whole) (c : Call) (mem : Int → Word)
    (hj : ∀ s, Visited f c (enter 0 0 mem) s → JumpForward f s) :
    (∃ v, bpfDoFilter f c mem (f.len + 1) = some v) ∧
      (∀ s, Visited f c (enter 0 0 mem) s → f.Runs s → Inside f s) ∧
      (1 < f.len → ∀ s, Visited f c (enter 0 0 mem) s → Inside f s) := by
  have hf := Checked.of_bpfValidate hv
  have hin : ∀ s, Visited f c (enter 0 0 mem) s →
      Inside f s ∨ f.bytes ≤ sizeofBpfInsn ∧ ¬f.Runs s := by
    intro s hs
    exact hf.visited hwhole (fun s hs hin => (hj s hs).lands hin) hs
  refine ⟨?_, ?_, ?_⟩
  · apply iterate_of_measure (Visited f c (enter 0 0 mem)) (fun s => ((f.len : Int) - s.pc).toNat)
    · intro s t hs hround
      have ht : Visited f c (enter 0 0 mem) t := .next hs hround
      have hlt := (hj s hs).pc_lt hround
      have hrun := (filterRound_next hround).1
      have hpc := ((hin s hs).resolve_right fun h => h.2 hrun).2
      exact ⟨ht, by omega⟩
    · exact .here
    · simp only [enter]
      omega
  · intro s hs hrun
    exact (hin s hs).resolve_right fun h => h.2 hrun
  · intro hlen s hs
    apply (hin s hs).resolve_right
    rintro ⟨hbytes, -⟩
    have hle := f.len_le
    simp only [sizeofBpfInsn] at hle hbytes
    omega

theorem bpf_terminates_inside_store :
    (bpfValidate storeProgram none).1 = 1 ∧
      ∃ v, bpfDoFilter storeProgram etherCall zeroMem (storeProgram.len + 1) = some v := by
  have hv : (bpfValidate storeProgram none).1 = 1 := by decide
  have hjump : ∀ s, JumpForward storeProgram s := by
    intro s hrun hja
    exact (storeProgram_jump s hrun hja).2
  exact ⟨hv, (bpf_terminates_inside storeProgram none (by rw [hv]; decide) (by decide) etherCall
    zeroMem fun s _ => hjump s).1⟩

/-- A jump to itself. -/
def loopProgram : Filter :=
  program [beginIn, bpfStmt (bpfJmp ||| bpfJa) (-1), bpfStmt (bpfRet ||| bpfK) 0] (by decide)

/-- A jump to the memory in front of the filter. -/
def strayJumpProgram : Filter :=
  program [beginIn, bpfStmt (bpfJmp ||| bpfJa) (-3), bpfStmt (bpfRet ||| bpfK) 0] (by decide)

theorem bpf_backward_jumps_accepted :
    ((bpfValidate loopProgram none).1 = 1 ∧
      ∀ fuel, bpfDoFilter loopProgram etherCall zeroMem fuel = none) ∧
    (bpfValidate strayJumpProgram none).1 = 1 ∧
      ∃ s, Visited strayJumpProgram etherCall (enter 0 0 zeroMem) s ∧
        strayJumpProgram.Runs s ∧ ¬Inside strayJumpProgram s := by
  refine ⟨⟨by decide, iterate_of_fixed rfl⟩, by decide, (enter 0 0 zeroMem).goto (-3), ?_⟩
  exact ⟨.next .here rfl, by decide, fun hin => absurd hin.1 (by decide)⟩

end Hurd.Bpf
