import Hurd.Libbpf.Interpreter

/-!
# Validated filters

What `bpf_validate` establishes for each instruction of a program, what an instruction can do to
the program counter, the scratch memory and the divider, and the two guarantees for runs that
follow: the scratch memory is used within its bounds and the run ends inside the program.
-/

namespace Hurd.Bpf

open List

/-- The checks that an accepted program passes at index `i`. -/
structure Passed (f : Filter) (i : Nat) : Prop where
  jump : jumpRejected f.len i (f.insn i) = false
  memory : memoryRejected (f.insn i) = false
  division : divisionRejected (f.insn i) = false
  keys : (f.insn i).code = bpfRet ||| bpfMatchImm → (f.insn i).jt.toNat ≤ nNetHashKeys

structure Checked (f : Filter) : Prop where
  passed : ∀ i, 1 ≤ i → i < f.len → Passed f i
  last : bpfClass (f.insn ((f.len : Int) - 1)).code = bpfRet

theorem Passed.of_key {f : Filter} {i : Nat} (h : (f.insn i).code = bpfMisc ||| bpfKey) :
    Passed f i := by
  have hclass : bpfClass (bpfMisc ||| bpfKey) = bpfMisc := by decide
  constructor
  · simp [jumpRejected, h, hclass, show bpfMisc ≠ bpfJmp by decide]
  · simp [memoryRejected, h, hclass, show bpfMisc ≠ bpfSt by decide,
      show bpfMisc ≠ bpfLd by decide]
  · simp [divisionRejected, h, show bpfMisc ||| bpfKey ≠ bpfAlu ||| bpfDiv ||| bpfK by decide]
  · intro hm
    rw [h] at hm
    exact absurd hm (by decide)

theorem passed_of_keysFollow {f : Filter} {i n j : Nat} (h : keysFollow f i n = true)
    (hlo : i < j) (hhi : j ≤ i + n) : Passed f j := by
  have hkey := all_eq_true.mp h (j - i - 1) (mem_range.mpr (by omega))
  have hj : i + (j - i - 1 + 1) = j := by omega
  rw [hj] at hkey
  exact Passed.of_key (by simpa using hkey)

/-- What a round of the loop does: it ends the loop, or it goes on behind an instruction that it
has checked, or behind the keys of a match instruction. -/
inductive ValidateRound (f : Filter) (fuel i : Nat) (found : Option Nat)
    (r : Bool × Option Nat) : Prop
  | ends : r.2 = found → (r.1 = true → f.len ≤ i) → ValidateRound f fuel i found r
  | matched : Passed f i → (f.insn i).jt ≠ 0 → keysFollow f i (f.insn i).jt.toNat = true →
      validateFrom f fuel (i + (f.insn i).jt.toNat + 1) (some i) = r →
      ValidateRound f fuel i found r
  | checked : Passed f i → validateFrom f fuel (i + 1) found = r →
      ValidateRound f fuel i found r

theorem validateFrom_round {f : Filter} {fuel i : Nat} {found : Option Nat}
    {r : Bool × Option Nat} (h : validateFrom f (fuel + 1) i found = r) :
    ValidateRound f fuel i found r := by
  -- a check that fails leaves the loop
  have hfail : (false, found) = r → ValidateRound f fuel i found r := by
    intro h
    exact .ends (h ▸ rfl) (by simp [← h])
  rw [validateFrom] at h
  by_cases hi : i < f.len
  · rw [if_pos hi] at h
    dsimp only at h
    by_cases hjump : jumpRejected f.len i (f.insn i) = true
    · rw [if_pos hjump] at h
      exact hfail h
    rw [if_neg hjump] at h
    by_cases hmem : memoryRejected (f.insn i) = true
    · rw [if_pos hmem] at h
      exact hfail h
    rw [if_neg hmem] at h
    by_cases hdiv : divisionRejected (f.insn i) = true
    · rw [if_pos hdiv] at h
      exact hfail h
    rw [if_neg hdiv] at h
    have hpassed : ((f.insn i).code = bpfRet ||| bpfMatchImm →
        (f.insn i).jt.toNat ≤ nNetHashKeys) → Passed f i := by
      intro hkeys
      exact ⟨Bool.eq_false_iff.mpr hjump, Bool.eq_false_iff.mpr hmem,
        Bool.eq_false_iff.mpr hdiv, hkeys⟩
    by_cases hmatch : (f.insn i).code = bpfRet ||| bpfMatchImm
    · rw [if_pos hmatch] at h
      split at h
      · exact hfail h
      · rename_i hkeys
        simp only [Bool.or_eq_true, decide_eq_true_eq, not_or] at hkeys
        split at h
        · exact hfail h
        · split at h
          · rename_i hfollow
            exact .matched (hpassed fun _ => by omega) hkeys.1.2 hfollow h
          · exact hfail h
    · rw [if_neg hmatch] at h
      exact .checked (hpassed fun hm => absurd hm hmatch) h
  · rw [if_neg hi] at h
    exact .ends (h ▸ rfl) fun _ => Nat.le_of_not_lt hi

theorem validateFrom_passed {f : Filter} {fuel i : Nat} {found found' : Option Nat}
    (h : validateFrom f fuel i found = (true, found')) (hfuel : f.len ≤ fuel + i) :
    ∀ j, i ≤ j → j < f.len → Passed f j := by
  induction fuel generalizing i found with
  | zero =>
    intro j hij hj
    omega
  | succ fuel ih =>
    intro j hij hj
    cases validateFrom_round h with
    | ends _ hend =>
      have hle := hend rfl
      omega
    | matched hpassed _ hfollow hrest =>
      rcases Nat.lt_trichotomy j i with hlt | heq | hgt
      · omega
      · exact heq ▸ hpassed
      · by_cases hin : j ≤ i + (f.insn i).jt.toNat
        · exact passed_of_keysFollow hfollow hgt hin
        · exact ih hrest (by omega) j (by omega) hj
    | checked hpassed hrest =>
      by_cases heq : j = i
      · exact heq ▸ hpassed
      · exact ih hrest (by omega) j (by omega) hj

theorem validateFrom_jt {f : Filter} {fuel i p : Nat} {found : Option Nat} {ok : Bool}
    (h : validateFrom f fuel i found = (ok, some p)) (hfound : ∀ q ∈ found, (f.insn q).jt ≠ 0) :
    (f.insn p).jt ≠ 0 := by
  induction fuel generalizing i found with
  | zero => exact hfound p (Prod.ext_iff.mp h).2
  | succ fuel ih =>
    cases validateFrom_round h with
    | ends heq _ => exact hfound p heq.symm
    | matched _ hjt _ hrest =>
      apply ih hrest
      intro q hq
      cases hq
      exact hjt
    | checked _ hrest => exact ih hrest hfound

theorem Checked.of_bpfValidate {f : Filter} {found : Option Nat}
    (h : (bpfValidate f found).1 ≠ 0) : Checked f := by
  unfold bpfValidate at h
  split at h
  · exact absurd rfl h
  · rename_i found' hloop
    split_ifs at h with hlast
    · exact ⟨validateFrom_passed hloop (by omega), hlast⟩
    · exact ⟨validateFrom_passed hloop (by omega), hlast⟩
    · exact absurd rfl h

/-- The three ways in which an instruction hands on control. -/
inductive Continues (i : BpfInsn) (pc : Int) : Int → Prop
  | falls : Continues i pc (pc + 1)
  | jumps : i.code = bpfJmp ||| bpfJa → Continues i pc (pc + 1 + i.k.toInt)
  | branches (taken : BitVec 8) : bpfClass i.code = bpfJmp → bpfOp i.code ≠ bpfJa →
      taken = i.jt ∨ taken = i.jf → Continues i pc (pc + 1 + taken.toNat)

@[simp] theorem goto_pc (s : Regs) (d : Int) : (s.goto d).pc = s.pc + 1 + d := by
  simp only [Regs.goto]
  omega

@[simp] theorem continue_pc (s : Regs) : s.continue.pc = s.pc + 1 := by
  simp [Regs.continue]

theorem load_next {c : Call} {size : Size} {k : Word} {s t : Regs} {use : Word → Regs}
    (h : (load c size k s use).out = .next t) (huse : ∀ v, (use v).pc = s.pc) :
    t.pc = s.pc + 1 := by
  unfold load at h
  split at h
  · cases h
  · cases h
    simp [huse]

theorem aluEffect_next {op : AluOp} {src : Src} {i : BpfInsn} {s t : Regs}
    (h : (aluEffect op src i s).out = .next t) : t.pc = s.pc + 1 := by
  unfold aluEffect at h
  dsimp only at h
  split at h
  · split_ifs at h
    cases h
    simp
  · cases h
    simp
  · cases h
    simp

theorem exec_next {c : Call} {i : BpfInsn} {s t : Regs} (h : (exec c i s).out = .next t) :
    bpfClass i.code ≠ bpfRet ∧ Continues i s.pc t.pc := by
  unfold exec at h
  split at h
  · cases h
  · rename_i op hdec
    have hcode := decode_eq_some.mp hdec
    rw [hcode]
    cases op with
    | retK | retA | retMatchImm => cases h
    | ldAbs size | ldInd size =>
      refine ⟨by cases size <;> decide, ?_⟩
      rw [load_next h fun _ => rfl]
      exact .falls
    | ldxMsh =>
      refine ⟨by decide, ?_⟩
      rw [load_next h fun _ => rfl]
      exact .falls
    | ja =>
      cases h
      refine ⟨by decide, ?_⟩
      rw [goto_pc]
      exact .jumps hcode
    | jmp cmp src =>
      cases h
      refine ⟨by cases cmp <;> cases src <;> decide, ?_⟩
      have hjmp : bpfClass i.code = bpfJmp ∧ bpfOp i.code ≠ bpfJa := by
        rw [hcode]
        cases cmp <;> cases src <;> decide
      rw [goto_pc]
      split_ifs
      · exact .branches i.jt hjmp.1 hjmp.2 (.inl rfl)
      · exact .branches i.jf hjmp.1 hjmp.2 (.inr rfl)
    | alu op src =>
      refine ⟨by cases op <;> cases src <;> decide, ?_⟩
      rw [aluEffect_next h]
      exact .falls
    | _ =>
      cases h
      refine ⟨by decide, ?_⟩
      rw [continue_pc]
      exact .falls

def Opcode.Loads : Opcode → Prop
  | .ldAbs _ | .ldInd _ | .ldxMsh => True
  | _ => False

/-- Where the accesses and the divisions of an instruction come from. -/
inductive Touches (i : BpfInsn) (s : Regs) : Access → Prop
  | direct (op : Opcode) : op ∈ [Opcode.ldMem, .ldxMem, .st, .stx] → i.code = op.code →
      Touches i s (.scratch i.k.toInt)
  | key (j : Nat) : i.code = Opcode.retMatchImm.code → j < i.jt.toNat → Touches i s (.scratch j)
  | constant : i.code = (Opcode.alu .div .k).code → Touches i s (.divisor i.k)
  | index : s.X ≠ 0 → Touches i s (.divisor s.X)
  | load (op : Opcode) (data : Buffer) (offset : Int) : i.code = op.code → op.Loads →
      Touches i s (data.access offset)

theorem load_accesses {c : Call} {size : Size} {k : Word} {s : Regs} {use : Word → Regs}
    {a : Access} (h : a ∈ (load c size k s use).accesses) :
    ∃ data offset, a = Buffer.access data offset := by
  unfold load at h
  split at h
  · simp at h
  · rename_i data offset _
    obtain ⟨j, -, rfl⟩ := mem_map.mp h
    exact ⟨data, offset + j, rfl⟩

theorem aluEffect_accesses {op : AluOp} {src : Src} {i : BpfInsn} {s : Regs} {a : Access}
    (hcode : i.code = (Opcode.alu op src).code) (h : a ∈ (aluEffect op src i s).accesses) :
    Touches i s a := by
  unfold aluEffect at h
  dsimp only at h
  split at h
  · split_ifs at h with hx
    · simp at h
    · simp only [Src.operand, mem_singleton] at h
      exact h ▸ .index hx
  · simp only [Src.operand, mem_singleton] at h
    exact h ▸ .constant hcode
  · simp at h

theorem exec_accesses {c : Call} {i : BpfInsn} {s : Regs} {a : Access}
    (h : a ∈ (exec c i s).accesses) : Touches i s a := by
  unfold exec at h
  split at h
  · simp at h
  · rename_i op hdec
    have hcode := decode_eq_some.mp hdec
    cases op with
    | retMatchImm =>
      simp only [Opcode.exec, matchAccesses] at h
      split_ifs at h with hn
      · simp at h
      · obtain ⟨j, hj, rfl⟩ := mem_map.mp h
        exact .key j hcode (mem_range.mp hj)
    | ldAbs size | ldInd size | ldxMsh =>
      obtain ⟨data, offset, rfl⟩ := load_accesses h
      exact .load _ data offset hcode trivial
    | ldMem | ldxMem | st | stx =>
      simp only [Opcode.exec, mem_singleton] at h
      exact h ▸ .direct _ (by simp) hcode
    | alu op src => exact aluEffect_accesses hcode h
    | _ => simp [Opcode.exec] at h

theorem exec_of_code {i : BpfInsn} (op : Opcode) (h : i.code = op.code) (c : Call) (s : Regs) :
    exec c i s = op.exec c i s := by
  simp [exec, decode_eq_some.mpr h]

/-- The first instruction to run, if there is one, is in the filter whole: it is not a header
followed by a part of an instruction. -/
def Filter.Whole (f : Filter) : Prop :=
  f.bytes ≤ sizeofBpfInsn ∨ 2 * sizeofBpfInsn ≤ f.bytes

instance (f : Filter) : Decidable f.Whole :=
  inferInstanceAs (Decidable (_ ∨ _))

/-- The unconditional jumps of the run do not lead in front of the program, and their targets
are computed without overflow. -/
def JumpLands (f : Filter) (s : Regs) : Prop :=
  f.Runs s → (f.insn s.pc).code = bpfJmp ||| bpfJa →
    1 ≤ s.pc + 1 + (f.insn s.pc).k.toInt ∧ s.pc + 1 + (f.insn s.pc).k.toInt < 2 ^ 31

def Inside (f : Filter) (s : Regs) : Prop := 1 ≤ s.pc ∧ s.pc < f.len

theorem Filter.len_le (f : Filter) : f.len * sizeofBpfInsn ≤ f.bytes :=
  Nat.div_mul_le_self _ _

theorem Filter.len_lt (f : Filter) : f.len < 2 ^ 28 := by
  have h₁ := f.len_le
  have h₂ := f.bytes_lt
  simp only [sizeofBpfInsn] at h₁
  omega

theorem Inside.runs {f : Filter} {s : Regs} (h : Inside f s) : f.Runs s := by
  have hlen := f.len_le
  have hpc := h.2
  simp only [sizeofBpfInsn] at hlen
  simp only [Filter.Runs, sizeofBpfInsn]
  omega

theorem Inside.index {f : Filter} {s : Regs} (h : Inside f s) :
    ∃ i : Nat, s.pc = i ∧ 1 ≤ i ∧ i < f.len := by
  obtain ⟨hlo, hhi⟩ := h
  exact ⟨s.pc.toNat, by omega, by omega, by omega⟩

theorem wrapped_target {i : Nat} {k : Word} (hi : i + 1 < 2 ^ 31)
    (hlo : 0 ≤ (i : Int) + 1 + k.toInt) (hhi : (i : Int) + 1 + k.toInt < 2 ^ 31) :
    (BitVec.ofNat 32 (i + 1) + k).toInt = i + 1 + k.toInt := by
  have hfrom : (BitVec.ofNat 32 (i + 1)).toInt = i + 1 := by
    rw [BitVec.toInt_ofNat', Int.bmod_eq_of_le] <;> omega
  rw [BitVec.toInt_add, hfrom, Int.bmod_eq_of_le] <;> omega

theorem Checked.inside_next {f : Filter} {c : Call} {s t : Regs} (hf : Checked f)
    (hs : Inside f s) (hj : JumpLands f s) (h : (exec c (f.insn s.pc) s).out = .next t) :
    Inside f t := by
  obtain ⟨i, hi, hlo, hhi⟩ := hs.index
  have hlen := f.len_lt
  have hpass := hf.passed i hlo hhi
  obtain ⟨hret, hcont⟩ := exec_next h
  -- the last instruction is a return, so that falling through stays inside
  have hnext : i + 1 < f.len := by
    by_contra hlast
    have hpc : s.pc = (f.len : Int) - 1 := by omega
    rw [hpc] at hret
    exact hret hf.last
  rw [Inside]
  generalize htpc : t.pc = pc' at hcont
  cases hcont with
  | falls => omega
  | jumps hja =>
    have hland := hj hs.runs hja
    rw [hi] at hland hja ⊢
    have hcheck := hpass.jump
    rw [jumpRejected, if_pos (by rw [hja]; decide), if_pos (by rw [hja]; decide),
      wrapped_target (by omega) (by omega) hland.2] at hcheck
    simp only [decide_eq_false_iff_not, Int.not_le] at hcheck
    exact ⟨hland.1, hcheck⟩
  | branches taken hclass hop htaken =>
    rw [hi] at hclass hop htaken ⊢
    have hcheck := hpass.jump
    rw [jumpRejected, if_pos hclass, if_neg hop] at hcheck
    simp only [Bool.or_eq_false_iff, decide_eq_false_iff_not, Nat.not_le] at hcheck
    rcases htaken with rfl | rfl
    · omega
    · omega

end Hurd.Bpf
