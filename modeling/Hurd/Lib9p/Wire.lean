import Hurd.Framework.LittleEndian
import Hurd.Framework.Outcome

/-!
# Messages of the 9P client

A request is built in a buffer that was allocated for it, word by word and string by string; the
reply is read from the connection, header first. `p9_encode_string` compares what it writes with
what it takes to be left of the message, the other stores compare nothing. A store past the end
of the buffer is a stop of its own.
-/

namespace Hurd.Lib9p

/-- The error codes of `9p.h` that the client sets. -/
inductive Errno where
  | eio | eproto | enomem | einval | enoent | emfile
  deriving DecidableEq, Repr

/-- What must not happen: a store past the end of a buffer, and the use of a structure that is not
allocated. -/
inductive Fault where
  | overrun | invalid
  deriving DecidableEq, Repr

/-- How the making of a request stops. -/
inductive Stop where
  | errno (e : Errno)
  | fault (f : Fault)
  deriving DecidableEq, Repr

/-- A string, without the byte 0 at its end. -/
abbrev Str := List UInt8

/-- `struct p9_qid` -/
structure Qid where
  type : UInt8
  version : Nat
  path : Nat
  deriving DecidableEq, Repr

structure Message where
  size : Nat
  type : UInt8
  tag : UInt16
  data : List UInt8
  deriving DecidableEq, Repr

/-- Message types, each one less than that of the reply. -/
def tversion : UInt8 := 100
def tattach : UInt8 := 104
def twalk : UInt8 := 110
def topen : UInt8 := 112
def tread : UInt8 := 116
def twrite : UInt8 := 118
def tclunk : UInt8 := 120

def nofid : Nat := 2 ^ 32 - 1

section Encoding

/-- The data of a message that is being built: the size in its header, the bytes allocated for the
data, those written so far, and `len`, what the code takes to be left. -/
structure Draft where
  size : Nat
  room : Nat
  data : List UInt8
  len : Nat
  deriving DecidableEq, Repr

/-- `malloc (sizeof (struct p9_message) + len)` and the header; `len` has 64 bits, the size in the
header 32. -/
def newDraft (len : Nat) : Except Stop Draft :=
  let allocated := (8 + len) % 2 ^ 64
  let size := len % 2 ^ 32
  if allocated < 8 then .error (.fault .overrun)
  else
    .ok { size := size
          room := allocated - 8
          data := []
          len := (size + 2 ^ 32 - 7) % 2 ^ 32 }

/-- A store at `buf`, which `buf` and `len` follow. -/
def Draft.store (w : List UInt8) (d : Draft) : Except Stop Draft :=
  if d.data.length + w.length ≤ d.room then
    .ok { d with data := d.data ++ w, len := (d.len + 2 ^ 64 - w.length) % 2 ^ 64 }
  else .error (.fault .overrun)

/-- `p9_encode_string`; the length is stored in 16 bits. -/
def p9EncodeString (str : Str) (d : Draft) : Except Stop Draft :=
  if d.len < 2 + str.length then .error (.errno .eproto)
  else (d.store (wordBytes 2 str.length)).bind (Draft.store str)

/-- `p9_encode_string` for each of several strings. -/
def encodeNames : List Str → Draft → Except Stop Draft
  | [], d => .ok d
  | name :: names, d => (p9EncodeString name d).bind (encodeNames names)

/-- The message as it is handed to `p9_send_message`, which sends no more than `size` says. -/
def Draft.message (type : UInt8) (tag : UInt16) (d : Draft) : Message where
  size := d.size
  type := type
  tag := tag
  data := d.data.take (d.size - 7)

end Encoding

section Decoding

/-- `p9_decode_string`; `memory` tells whether its allocation succeeds. -/
def p9DecodeString (memory : Bool) (buf : List UInt8) : Option (Str × List UInt8) :=
  if buf.length < 2 then none
  else
    let slen := bytesWord (buf.take 2)
    let rest := buf.drop 2
    if rest.length < slen then none
    else if memory then some (rest.take slen, rest.drop slen) else none

def p9DecodeQid (buf : List UInt8) : Option (Qid × List UInt8) :=
  if buf.length < 13 then none
  else
    some ({ type := UInt8.ofNat (bytesWord (buf.take 1))
            version := bytesWord ((buf.drop 1).take 4)
            path := bytesWord ((buf.drop 5).take 8) }, buf.drop 13)

end Decoding

section Transport

/-- What becomes of the calls that an operation makes: the address of the structure that it
allocates (0 where there is no memory), its other allocations, how much each `write` and each `read`
on the connection does at most, and what the peer sends meanwhile. -/
structure Env where
  fid : Nat
  tmsg : Bool
  rmsg : Bool
  string : Bool
  writes : Nat → Nat
  reads : Nat → Nat
  answer : List UInt8

/-- The number of bytes that `p9_send_message` sends. -/
def Message.length (m : Message) : Nat := 4 + 1 + 2 + (m.size - 7)

/-- `p9_send_message`, whether it succeeds. -/
def p9SendMessage (writes : Nat → Nat) (m : Message) : Bool :=
  writes 0 = 4 ∧ writes 1 = 1 ∧ writes 2 = 2 ∧ (m.size > 7 → writes 3 = m.size - 7)

def replyBytes (type : UInt8) (tag : UInt16) (data : List UInt8) : List UInt8 :=
  wordBytes 4 (7 + data.length) ++ (wordBytes 1 type.toNat ++ (wordBytes 2 tag.toNat ++ data))

/-- The end of `p9_receive_message`. -/
def receiveData (reads : Nat → Nat) (size : Nat) (type : UInt8) (tag : UInt16) (s : List UInt8) :
    Option Message × List UInt8 :=
  if size > 7 then
    match readBytes (reads 3) (size - 7) s with
    | (none, s) => (none, s)
    | (some data, s) => (some { size := size, type := type, tag := tag, data := data }, s)
  else (some { size := size, type := type, tag := tag, data := [] }, s)

/-- The tag and the data in `p9_receive_message`. -/
def receiveTag (reads : Nat → Nat) (size : Nat) (type : UInt8) (s : List UInt8) :
    Option Message × List UInt8 :=
  match readBytes (reads 2) 2 s with
  | (none, s) => (none, s)
  | (some tag, s) => receiveData reads size type (UInt16.ofNat (bytesWord tag)) s

/-- `p9_receive_message`, with what it leaves of the bytes that have come in. -/
def p9ReceiveMessage (memory : Bool) (reads : Nat → Nat) (msize : Nat) (s : List UInt8) :
    Option Message × List UInt8 :=
  match readBytes (reads 0) 4 s with
  | (none, s) => (none, s)
  | (some word, s) =>
      let size := bytesWord word
      if size < 7 ∨ size > msize then (none, s)
      else if ¬ memory then (none, s)
      else
        match readBytes (reads 1) 1 s with
        | (none, s) => (none, s)
        | (some type, s) => receiveTag reads size (UInt8.ofNat (bytesWord type)) s

end Transport

end Hurd.Lib9p
