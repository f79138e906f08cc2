import Hurd.Framework.Loop
import Hurd.Libbpf.Filter

/-!
# Running a packet filter

The interpreter `bpf_do_filter`. Besides its result, each instruction gives the list of the memory
accesses and divisions it makes.
-/

namespace Hurd.Bpf

/-- `struct net_hash_entry`. -/
structure NetHashEntry where
  rcvPort : Nat
  keys : Nat → Word

/-- What `bpf_do_filter` reads of its `infp` besides the program: `struct net_rcv_port`, seen as
the `struct net_hash_header` that it is when the program has a match instruction. -/
structure NetRcvPort where
  rcvPort : Nat
  nKeys : Nat
  table : Nat → List NetHashEntry

def machPortNull : Nat := 0

/-- The arguments of `bpf_do_filter`, with the memory around `p` and `header`, and the width of
`size_t`, in which the ends of a word or a half-word are computed. -/
structure Call where
  infp : NetRcvPort
  p : Int → BitVec 8
  wirelen : Word
  header : Int → BitVec 8
  hlen : Word
  sizeBits : Nat
  le_sizeBits : 32 ≤ sizeBits

/-- The local variables at the head of the loop, and `*entpp`. The words around the array `mem`
are those of the stack that an index out of its range reaches. -/
structure Regs where
  pc : Int
  A : Word
  X : Word
  mem : Int → Word
  entp : Option NetHashEntry

/-- What the caller gets: the returned `int`, `*entpp` and the bucket `*hash_headpp`. -/
structure Verdict where
  count : Int
  entp : Option NetHashEntry
  hashHead : Option Nat

/-- The memory accesses and divisions of one instruction. -/
inductive Access where
  | scratch (index : Int)
  | divisor (d : Word)
  | header (offset : Int)
  | packet (offset : Int)
deriving DecidableEq

structure Effect where
  accesses : List Access
  out : Round Regs Verdict

/-- `pc += d; continue`, with the `++pc` of the loop. -/
def Regs.goto (s : Regs) (d : Int) : Regs := { s with pc := s.pc + d + 1 }

def Regs.continue (s : Regs) : Regs := s.goto 0

def Regs.reject (s : Regs) : Verdict := ⟨0, s.entp, none⟩

def bpfHash (n : Nat) (keys : Int → Word) : Nat :=
  ((List.range n).foldl (fun hval (i : Nat) => hval + keys i) 0).toNat % netHashSize

/-- `bpf_match (hash, n_keys, keys, hash_headpp, entpp)`: the bucket looked at and the entry
found in it. -/
def bpfMatch (hash : NetRcvPort) (nKeys : Nat) (keys : Int → Word) :
    Option Nat × Option NetHashEntry :=
  if nKeys ≠ hash.nKeys then (none, none)
  else
    let head := bpfHash nKeys keys
    (some head, (hash.table head).find? fun entp =>
      (List.range nKeys).all fun (i : Nat) => keys i = entp.keys i)

def matchAccesses (hash : NetRcvPort) (nKeys : Nat) : List Access :=
  if nKeys ≠ hash.nKeys then [] else (List.range nKeys).map fun (i : Nat) => .scratch i

/-- `((u_int)k <= wirelen) ? k : wirelen`, returned as an `int`. -/
def Call.clip (c : Call) (k : Word) : Int :=
  (if k.toNat ≤ c.wirelen.toNat then k else c.wirelen).toInt

def Call.accept (c : Call) (s : Regs) (k : Word) : Verdict :=
  if c.infp.rcvPort = machPortNull ∧ s.entp.isNone then s.reject else ⟨c.clip k, s.entp, none⟩

def retMatch (c : Call) (i : BpfInsn) (s : Regs) : Verdict :=
  match bpfMatch c.infp i.jt.toNat s.mem with
  | (head, some entp) => ⟨c.clip i.k, some entp, head⟩
  | (head, none) => ⟨0, s.entp, head⟩

/-- The bound check of a load: `(u_int)k + sizeof (..) <= bound`, or `(u_int)k < bound` for a
byte. The addition is one of `size_t`s. -/
def Call.below (c : Call) (size : Size) (k bound : Word) : Bool :=
  match size with
  | .byte => k.toNat < bound.toNat
  | _ => (k.toNat + size.bytes) % 2 ^ c.sizeBits ≤ bound.toNat

inductive Buffer where
  | header
  | packet
deriving DecidableEq

/-- The buffer that a load goes to and the offset in it, after `k -= hlen` an `int` again. -/
def Call.locate (c : Call) (size : Size) (k : Word) : Option (Buffer × Int) :=
  if c.below size k c.hlen then some (.header, k.toInt)
  else if c.below size k netRcvMax then some (.packet, (k - c.hlen).toInt)
  else none

def Call.data (c : Call) : Buffer → Int → BitVec 8
  | .header => c.header
  | .packet => c.p

/-- `ntohl`, `EXTRACT_SHORT` or a plain `char`, which is signed. -/
def Call.extract (c : Call) (size : Size) (data : Buffer) (k : Int) : Word :=
  match size with
  | .word => c.data data k ++ c.data data (k + 1) ++ c.data data (k + 2) ++ c.data data (k + 3)
  | .half => (c.data data k ++ c.data data (k + 1)).setWidth 32
  | .byte => (c.data data k).signExtend 32

def Buffer.access : Buffer → Int → Access
  | .header => .header
  | .packet => .packet

def loadAccesses (size : Size) (data : Buffer) (k : Int) : List Access :=
  (List.range size.bytes).map fun (j : Nat) => data.access (k + j)

/-- A load at offset `k` that hands the value read to `use`. -/
def load (c : Call) (size : Size) (k : Word) (s : Regs) (use : Word → Regs) : Effect :=
  match c.locate size k with
  | none => ⟨[], .stop s.reject⟩
  | some (data, k) => ⟨loadAccesses size data k, .next (use (c.extract size data k)).continue⟩

def Src.operand (src : Src) (i : BpfInsn) (s : Regs) : Word :=
  match src with
  | .k => i.k
  | .x => s.X

/-- The comparisons are unsigned. -/
def Cmp.eval (cmp : Cmp) (a b : Word) : Bool :=
  match cmp with
  | .jgt => b.toNat < a.toNat
  | .jge => b.toNat ≤ a.toNat
  | .jeq => a = b
  | .jset => a &&& b ≠ 0

/-- Shift counts are taken modulo the word size, as the processor does. -/
def AluOp.eval (op : AluOp) (a b : Word) : Word :=
  match op with
  | .add => a + b
  | .sub => a - b
  | .mul => a * b
  | .div => a / b
  | .and => a &&& b
  | .or => a ||| b
  | .lsh => a <<< (b.toNat % 32)
  | .rsh => a >>> (b.toNat % 32)

/-- Division looks at its divisor first when that is the index register. -/
def aluEffect (op : AluOp) (src : Src) (i : BpfInsn) (s : Regs) : Effect :=
  let b := src.operand i s
  match op, src with
  | .div, .x =>
      if s.X = 0 then ⟨[], .stop s.reject⟩
      else ⟨[.divisor b], .next { s with A := s.A / b }.continue⟩
  | .div, .k => ⟨[.divisor b], .next { s with A := s.A / b }.continue⟩
  | op, _ => ⟨[], .next { s with A := op.eval s.A b }.continue⟩

def setMem (mem : Int → Word) (index : Int) (v : Word) : Int → Word :=
  fun j => if j = index then v else mem j

/-- One case of the switch. -/
def Opcode.exec (op : Opcode) (c : Call) (i : BpfInsn) (s : Regs) : Effect :=
  match op with
  | .retK => ⟨[], .stop (c.accept s i.k)⟩
  | .retA => ⟨[], .stop (c.accept s s.A)⟩
  | .retMatchImm => ⟨matchAccesses c.infp i.jt.toNat, .stop (retMatch c i s)⟩
  | .ldAbs size => load c size i.k s fun v => { s with A := v }
  | .ldLen => ⟨[], .next { s with A := c.wirelen }.continue⟩
  | .ldxLen => ⟨[], .next { s with X := c.wirelen }.continue⟩
  | .ldInd size => load c size (s.X + i.k) s fun v => { s with A := v }
  | .ldxMsh => load c .byte i.k s fun v => { s with X := (v &&& 0xf) <<< 2 }
  | .ldImm => ⟨[], .next { s with A := i.k }.continue⟩
  | .ldxImm => ⟨[], .next { s with X := i.k }.continue⟩
  | .ldMem => ⟨[.scratch i.k.toInt], .next { s with A := s.mem i.k.toInt }.continue⟩
  | .ldxMem => ⟨[.scratch i.k.toInt], .next { s with X := s.mem i.k.toInt }.continue⟩
  | .st => ⟨[.scratch i.k.toInt], .next { s with mem := setMem s.mem i.k.toInt s.A }.continue⟩
  | .stx => ⟨[.scratch i.k.toInt], .next { s with mem := setMem s.mem i.k.toInt s.X }.continue⟩
  | .ja => ⟨[], .next (s.goto i.k.toInt)⟩
  | .jmp cmp src =>
      ⟨[], .next (s.goto (if cmp.eval s.A (src.operand i s) then i.jt.toNat else i.jf.toNat))⟩
  | .alu op src => aluEffect op src i s
  | .neg => ⟨[], .next { s with A := -s.A }.continue⟩
  | .tax => ⟨[], .next { s with X := s.A }.continue⟩
  | .txa => ⟨[], .next { s with A := s.X }.continue⟩

/-- The body of the loop; an unknown instruction aborts the run. -/
def exec (c : Call) (i : BpfInsn) (s : Regs) : Effect :=
  match decode i.code with
  | none => ⟨[], .stop s.reject⟩
  | some op => op.exec c i s

/-- `pc < pc_end`. -/
def Filter.Runs (f : Filter) (s : Regs) : Prop := sizeofBpfInsn * s.pc < f.bytes

instance (f : Filter) (s : Regs) : Decidable (f.Runs s) :=
  inferInstanceAs (Decidable (_ < _))

def filterRound (f : Filter) (c : Call) (s : Regs) : Round Regs Verdict :=
  if f.Runs s then (exec c (f.insn s.pc) s).out else .stop s.reject

/-- The state in which the loop is entered, for any accumulator and index register. -/
def enter (a x : Word) (mem : Int → Word) : Regs := ⟨1, a, x, mem, none⟩

/-- `bpf_do_filter`, for at most `fuel` rounds. The array `mem` is not initialised. -/
def bpfDoFilter (f : Filter) (c : Call) (mem : Int → Word) (fuel : Nat) : Option Verdict :=
  iterate (filterRound f c) fuel (enter 0 0 mem)

end Hurd.Bpf
