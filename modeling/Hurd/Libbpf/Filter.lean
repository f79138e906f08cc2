import Mathlib.Algebra.Group.Int.Defs
import Mathlib.Algebra.Group.Nat.Defs
import Mathlib.Data.List.Basic

/-!
# Berkeley packet filters

The filter language of `device/bpf.h`, the check `bpf_validate` of `libbpf/bpf_impl.c` that admits
a program, and the case labels by which `bpf_do_filter` tells its instructions apart.
-/

namespace Hurd.Bpf

abbrev Word := BitVec 32

def bpfLd : BitVec 16 := 0x00
def bpfLdx : BitVec 16 := 0x01
def bpfSt : BitVec 16 := 0x02
def bpfStx : BitVec 16 := 0x03
def bpfAlu : BitVec 16 := 0x04
def bpfJmp : BitVec 16 := 0x05
def bpfRet : BitVec 16 := 0x06
def bpfMisc : BitVec 16 := 0x07

def bpfW : BitVec 16 := 0x00
def bpfH : BitVec 16 := 0x08
def bpfB : BitVec 16 := 0x10

def bpfImm : BitVec 16 := 0x00
def bpfAbs : BitVec 16 := 0x20
def bpfInd : BitVec 16 := 0x40
def bpfMem : BitVec 16 := 0x60
def bpfLen : BitVec 16 := 0x80
def bpfMsh : BitVec 16 := 0xa0

def bpfAdd : BitVec 16 := 0x00
def bpfSub : BitVec 16 := 0x10
def bpfMul : BitVec 16 := 0x20
def bpfDiv : BitVec 16 := 0x30
def bpfOr : BitVec 16 := 0x40
def bpfAnd : BitVec 16 := 0x50
def bpfLsh : BitVec 16 := 0x60
def bpfRsh : BitVec 16 := 0x70
def bpfNeg : BitVec 16 := 0x80

def bpfJa : BitVec 16 := 0x00
def bpfJeq : BitVec 16 := 0x10
def bpfJgt : BitVec 16 := 0x20
def bpfJge : BitVec 16 := 0x30
def bpfJset : BitVec 16 := 0x40

def bpfK : BitVec 16 := 0x00
def bpfX : BitVec 16 := 0x08
def bpfA : BitVec 16 := 0x10
def bpfMatchImm : BitVec 16 := 0x18

def bpfTax : BitVec 16 := 0x00
def bpfTxa : BitVec 16 := 0x80
def bpfKey : BitVec 16 := 0x10

def bpfClass (code : BitVec 16) : BitVec 16 := code &&& 0x07
def bpfOp (code : BitVec 16) : BitVec 16 := code &&& 0xf0

/-- Number of scratch memory words. -/
def bpfMemwords : Nat := 16

def netRcvMax : Word := 4095
def netHashSize : Nat := 256
def nNetHashKeys : Nat := 4

/-- `struct bpf_insn`. The field `k` is a signed `int`. -/
structure BpfInsn where
  code : BitVec 16
  jt : BitVec 8
  jf : BitVec 8
  k : Word
deriving DecidableEq

def sizeofBpfInsn : Nat := 8

/-- A filter as its functions receive it: the memory at its address, read as instructions, and
its size in bytes, which is a non-negative `int` and need not be a multiple of an instruction's. -/
structure Filter where
  insn : Int → BpfInsn
  bytes : Nat
  bytes_lt : bytes < 2 ^ 31

/-- `BPF_BYTES2LEN (bytes)`. -/
def Filter.len (f : Filter) : Nat := f.bytes / sizeofBpfInsn

/-- The jump check. The addition `from + p->k` is one of `int`s and wraps. -/
def jumpRejected (len i : Nat) (p : BpfInsn) : Bool :=
  if bpfClass p.code = bpfJmp then
    if bpfOp p.code = bpfJa then
      (len : Int) ≤ (BitVec.ofNat 32 (i + 1) + p.k).toInt
    else
      len ≤ i + 1 + p.jt.toNat || len ≤ i + 1 + p.jf.toNat
  else false

/-- The check that memory operations use valid addresses. -/
def memoryRejected (p : BpfInsn) : Bool :=
  (bpfClass p.code = bpfSt || (bpfClass p.code = bpfLd && p.code &&& 0xe0 = bpfMem)) &&
    ((bpfMemwords : Int) ≤ p.k.toInt || p.k.toInt < 0)

/-- The check for constant division by 0. -/
def divisionRejected (p : BpfInsn) : Bool :=
  p.code = bpfAlu ||| bpfDiv ||| bpfK && p.k = 0

/-- All of `p[1] .. p[n]` are key instructions. -/
def keysFollow (f : Filter) (i n : Nat) : Bool :=
  (List.range n).all fun j => (f.insn (i + (j + 1) : Nat)).code = bpfMisc ||| bpfKey

/-- The loop of `bpf_validate` from index `i` on: whether it came to its end, and `*match`, the
position of the match instruction found so far. -/
def validateFrom (f : Filter) : Nat → Nat → Option Nat → Bool × Option Nat
  | 0, _, found => (true, found)
  | fuel + 1, i, found =>
      if i < f.len then
        let p := f.insn i
        if jumpRejected f.len i p then (false, found)
        else if memoryRejected p then (false, found)
        else if divisionRejected p then (false, found)
        else if p.code = bpfRet ||| bpfMatchImm then
          if found.isSome || p.jt = 0 || nNetHashKeys < p.jt.toNat then (false, found)
          else if f.len < i + p.jt.toNat + 1 then (false, found)
          else if keysFollow f i p.jt.toNat then
            validateFrom f fuel (i + p.jt.toNat + 1) (some i)
          else (false, found)
        else validateFrom f fuel (i + 1) found
      else (true, found)

/-- `bpf_validate (f, bytes, match)`: the returned value and `*match` afterwards. The loop
makes fewer than `len` rounds. -/
def bpfValidate (f : Filter) (found : Option Nat) : Nat × Option Nat :=
  match validateFrom f f.len 1 found with
  | (false, found) => (0, found)
  | (true, found) =>
      if bpfClass (f.insn ((f.len : Int) - 1)).code = bpfRet then
        (if found.isNone then 1 else 2, found)
      else (0, found)

inductive Src where
  | k
  | x
deriving DecidableEq

inductive Cmp where
  | jgt
  | jge
  | jeq
  | jset
deriving DecidableEq

inductive AluOp where
  | add
  | sub
  | mul
  | div
  | and
  | or
  | lsh
  | rsh
deriving DecidableEq

inductive Size where
  | word
  | half
  | byte
deriving DecidableEq

/-- The instructions that `bpf_do_filter` has a case for. -/
inductive Opcode where
  | retK
  | retA
  | retMatchImm
  | ldAbs (size : Size)
  | ldLen
  | ldxLen
  | ldInd (size : Size)
  | ldxMsh
  | ldImm
  | ldxImm
  | ldMem
  | ldxMem
  | st
  | stx
  | ja
  | jmp (cmp : Cmp) (src : Src)
  | alu (op : AluOp) (src : Src)
  | neg
  | tax
  | txa
deriving DecidableEq

def Src.code : Src → BitVec 16
  | .k => bpfK
  | .x => bpfX

def Cmp.code : Cmp → BitVec 16
  | .jgt => bpfJgt
  | .jge => bpfJge
  | .jeq => bpfJeq
  | .jset => bpfJset

def AluOp.code : AluOp → BitVec 16
  | .add => bpfAdd
  | .sub => bpfSub
  | .mul => bpfMul
  | .div => bpfDiv
  | .and => bpfAnd
  | .or => bpfOr
  | .lsh => bpfLsh
  | .rsh => bpfRsh

def Size.code : Size → BitVec 16
  | .word => bpfW
  | .half => bpfH
  | .byte => bpfB

def Size.bytes : Size → Nat
  | .word => 4
  | .half => 2
  | .byte => 1

/-- The case label of an instruction. -/
def Opcode.code : Opcode → BitVec 16
  | .retK => bpfRet ||| bpfK
  | .retA => bpfRet ||| bpfA
  | .retMatchImm => bpfRet ||| bpfMatchImm
  | .ldAbs size => bpfLd ||| size.code ||| bpfAbs
  | .ldLen => bpfLd ||| bpfW ||| bpfLen
  | .ldxLen => bpfLdx ||| bpfW ||| bpfLen
  | .ldInd size => bpfLd ||| size.code ||| bpfInd
  | .ldxMsh => bpfLdx ||| bpfMsh ||| bpfB
  | .ldImm => bpfLd ||| bpfImm
  | .ldxImm => bpfLdx ||| bpfImm
  | .ldMem => bpfLd ||| bpfMem
  | .ldxMem => bpfLdx ||| bpfMem
  | .st => bpfSt
  | .stx => bpfStx
  | .ja => bpfJmp ||| bpfJa
  | .jmp cmp src => bpfJmp ||| cmp.code ||| src.code
  | .alu op src => bpfAlu ||| op.code ||| src.code
  | .neg => bpfAlu ||| bpfNeg
  | .tax => bpfMisc ||| bpfTax
  | .txa => bpfMisc ||| bpfTxa

def switchCases : List Opcode :=
  [.retK, .retA, .retMatchImm,
    .ldAbs .word, .ldAbs .half, .ldAbs .byte, .ldLen, .ldxLen,
    .ldInd .word, .ldInd .half, .ldInd .byte, .ldxMsh,
    .ldImm, .ldxImm, .ldMem, .ldxMem, .st, .stx, .ja,
    .jmp .jgt .k, .jmp .jge .k, .jmp .jeq .k, .jmp .jset .k,
    .jmp .jgt .x, .jmp .jge .x, .jmp .jeq .x, .jmp .jset .x,
    .alu .add .x, .alu .sub .x, .alu .mul .x, .alu .div .x,
    .alu .and .x, .alu .or .x, .alu .lsh .x, .alu .rsh .x,
    .alu .add .k, .alu .sub .k, .alu .mul .k, .alu .div .k,
    .alu .and .k, .alu .or .k, .alu .lsh .k, .alu .rsh .k,
    .neg, .tax, .txa]

/-- `switch (pc->code)`; `none` is the default case. -/
def decode (code : BitVec 16) : Option Opcode :=
  switchCases.find? fun op => op.code = code

theorem decode_code {code : BitVec 16} {op : Opcode} (h : decode code = some op) :
    op.code = code := by
  simpa using List.find?_some h

theorem decode_of_code (op : Opcode) : decode op.code = some op := by
  cases op with
  | ldAbs size | ldInd size => cases size <;> rfl
  | jmp cmp src => cases cmp <;> cases src <;> rfl
  | alu op src => cases op <;> cases src <;> rfl
  | _ => rfl

@[simp] theorem decode_eq_some {code : BitVec 16} {op : Opcode} :
    decode code = some op ↔ code = op.code :=
  ⟨fun h => (decode_code h).symm, fun h => h ▸ decode_of_code op⟩

end Hurd.Bpf
