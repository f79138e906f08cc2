import Hurd.Libstore.Store

/-!
# Reads and writes of a store

`store_read` and `store_write` of `libstore/rdwr.c`, by the calls they make of the methods of the
class. Both go from run to run; only `store_read` looks whether the run it begins in is a hole.
-/

namespace Hurd.Libstore

open List

inductive RdwrError where
  | rofs | io | inval | noMem
  /-- What the method of the class has returned. -/
  | method (errno : Nat)
  deriving DecidableEq, Repr

/-- How a transfer ends: a trap is a division by zero. -/
inductive Ending where
  | success
  | error (e : RdwrError)
  | trap
  | unfinished
  deriving DecidableEq, Repr

/-- A call of the `read` or the `write` method of a class, for a part of the buffer. -/
structure MethodCall where
  addr : Int
  index : Nat
  offset : Nat
  amount : Nat
  deriving DecidableEq, Repr

/-- A `read` or `write` method, which may know the calls that have been made before. It transfers
up to the amount it is asked for. -/
structure Method (β : Type) (size : β → Nat) where
  run : List MethodCall → MethodCall → Except Nat β
  le : ∀ calls c answer, run calls c = .ok answer → size answer ≤ c.amount

/-- What a transfer has come to: the calls, what they have answered, and the end. -/
structure Transfer (β : Type) where
  calls : List MethodCall
  answers : List β
  ending : Ending
  deriving DecidableEq, Repr

namespace Transfer

variable {β : Type}

/-- The end of a transfer without any call. -/
def stop (ending : Ending) : Transfer β := ⟨[], [], ending⟩

def amount (size : β → Nat) (t : Transfer β) : Nat := (t.answers.map size).sum

end Transfer

section Runs

variable {β : Type} {size : β → Nat}

def Method.call (method : Method β size) (p : RunPosition) (amount : Nat) (t : Transfer β) :
    Transfer β :=
  let c : MethodCall := ⟨p.addr, p.index, t.amount size, amount⟩
  match method.run t.calls c with
  | .error e => ⟨t.calls ++ [c], t.answers, .error (.method e)⟩
  | .ok answer => ⟨t.calls ++ [c], t.answers ++ [answer], .success⟩

/-- Everything that was asked for has been transferred. -/
def Transfer.Full (t : Transfer β) (size : β → Nat) (amount : Nat) : Prop :=
  t.ending = .success ∧ t.amount size = amount

instance (t : Transfer β) (amount : Nat) : Decidable (t.Full size amount) :=
  inferInstanceAs (Decidable (_ ∧ _))

/-- What is transferred in a run: what is left, or the whole run. -/
def runAmount (s : StoreInfo) (run : StoreRun) (left : Nat) : Nat :=
  if left / 2 ^ s.log2BlockSize ≤ toSizeT run.length then left
  else toSizeT (run.length * 2 ^ s.log2BlockSize)

/-- The loop over the runs behind the first one. -/
def nextRuns (s : StoreInfo) (method : Method β size) :
    Nat → RunPosition → Nat → Transfer β → Transfer β
  | 0, _, _, t => { t with ending := .unfinished }
  | fuel + 1, p, left, t =>
      if left = 0 then t
      else
        match storeNextRun s p with
        | none => t
        | some p =>
            if p.run.start < 0 then t
            else
              let amount := runAmount s p.run left
              let t' := method.call p amount t
              if t'.Full size (t.amount size + amount) then nextRuns s method fuel p (left - amount) t'
              else t'

/-- The transfer of more than there is in the first run. -/
def splitRuns (s : StoreInfo) (method : Method β size) (fuel : Nat) (p : RunPosition) (left : Nat) :
    Transfer β :=
  let amount := toSizeT ((p.run.length - p.offset) * 2 ^ s.log2BlockSize)
  let t := method.call p amount (.stop .success)
  if t.Full size amount then nextRuns s method fuel p (left - amount) t else t

end Runs

def StoreInfo.size (s : StoreInfo) : Int := s.endBlock * s.blockSize

/-- The first run as the transfers take it. A pattern of runs that repeats at no distance, or has no
length, is divided by. -/
def storeFirst (s : StoreInfo) (addr : Int) : Except Ending RunPosition :=
  if s.wrapSrc ≤ addr ∧ addr < s.endBlock ∧ (s.wrapDst = 0 ∨ s.wrapSrc = 0) then .error .trap
  else
    match storeFindFirstRun s addr with
    | none => .error (.error .io)
    | some p => if p.offset < 0 then .error (.error .io) else .ok p

def storeReadonly : BitVec 32 := 0x100

/-- The amount is no number of blocks. -/
def StoreInfo.Unaligned (s : StoreInfo) (amount : Nat) : Prop :=
  s.blockSize ≠ 0 ∧ amount &&& (s.blockSize - 1) ≠ 0

instance (s : StoreInfo) (amount : Nat) : Decidable (s.Unaligned amount) :=
  inferInstanceAs (Decidable (_ ∧ _))

/-- Something behind the end of the store, from an address in blocks. The comparison is one of
`size_t`. -/
def StoreInfo.PastEnd (s : StoreInfo) (addr : Int) (amount : Nat) : Prop :=
  toSizeT s.size < (toSizeT (addr * 2 ^ s.log2BlockSize) + amount) % 2 ^ 64

instance (s : StoreInfo) (addr : Int) (amount : Nat) : Decidable (s.PastEnd addr amount) :=
  inferInstanceAs (Decidable (_ < _))

/-- `store_write`. The method answers with the amount it has written. -/
def storeWrite (s : StoreInfo) (method : Method Nat id) (fuel : Nat) (addr : Int) (len : Nat) :
    Transfer Nat :=
  if s.flags &&& storeReadonly ≠ 0 then .stop (.error .rofs)
  else if s.PastEnd addr len then .stop (.error .io)
  else if s.Unaligned len then .stop (.error .inval)
  else
    match storeFirst s addr with
    | .error ending => .stop ending
    | .ok p =>
        if len / 2 ^ s.log2BlockSize ≤ toSizeT (p.run.length - p.offset) then
          method.call p len (.stop .success)
        else splitRuns s method fuel p len

/-- What a read is cut to that begins at a position. The offset in the run is taken for the address
in the store. -/
def readAmount (s : StoreInfo) (p : RunPosition) (amount : Nat) : Nat :=
  if s.PastEnd p.offset amount then toSizeT (s.size - p.offset * 2 ^ s.log2BlockSize) else amount

/-- A short read is no error. -/
def shortRead (t : Transfer (List UInt8)) : Transfer (List UInt8) :=
  if t.ending ≠ .unfinished ∧ 0 < t.amount List.length then { t with ending := .success } else t

/-- `store_read`, for a buffer of `bufLen` bytes. The method answers with the bytes it has read;
`mmap` says whether there is memory for another buffer. -/
def storeRead (s : StoreInfo) (mmap : Nat → Bool) (method : Method (List UInt8) List.length)
    (fuel : Nat) (addr : Int) (amount bufLen : Nat) : Transfer (List UInt8) :=
  match storeFirst s addr with
  | .error ending => .stop ending
  | .ok p =>
      if p.run.start < 0 then .stop (.error .io)
      else
        let amount := readAmount s p amount
        if s.Unaligned amount then .stop (.error .inval)
        else if amount / 2 ^ s.log2BlockSize ≤ toSizeT (p.run.length - p.offset) then
          method.call p amount (.stop .success)
        else if bufLen < amount ∧ mmap amount = false then .stop (.error .noMem)
        else shortRead (splitRuns s method fuel p amount)

theorem findRun_index {runs : List StoreRun} {first index : Nat} {addr offset : Int}
    {run : StoreRun} (h : findRun runs first addr = some (index, run, offset)) :
    first ≤ index ∧ runs[index - first]? = some run := by
  induction runs generalizing first addr with
  | nil => cases h
  | cons head runs ih =>
    rw [findRun] at h
    split at h
    · cases h
      simp
    · obtain ⟨hle, hrun⟩ := ih h
      refine ⟨by omega, ?_⟩
      rw [show index - first = index - (first + 1) + 1 by omega, List.getElem?_cons_succ]
      exact hrun

theorem storeFirst_index {s : StoreInfo} {addr : Int} {p : RunPosition}
    (h : storeFirst s addr = .ok p) : s.runs[p.index]? = some p.run := by
  rw [storeFirst] at h
  split at h
  · cases h
  split at h
  · cases h
  next q hq =>
    split at h
    · cases h
    cases h
    simp only [storeFindFirstRun, Option.map_eq_some_iff] at hq
    obtain ⟨⟨index, run, offset⟩, hfind, rfl⟩ := hq
    simpa using (findRun_index hfind).2

theorem storeNextRun_index {s : StoreInfo} {p q : RunPosition} (h : storeNextRun s p = some q) :
    s.runs[q.index]? = some q.run := by
  rw [storeNextRun] at h
  split at h
  next run hrun =>
    cases h
    exact hrun
  next =>
    split at h
    · obtain ⟨run, hrun, rfl⟩ := Option.map_eq_some_iff.mp h
      rw [← hrun, List.head?_eq_getElem?]
    · cases h

def StoreInfo.IsHole (s : StoreInfo) (index : Nat) : Prop :=
  ∃ run, s.runs[index]? = some run ∧ run.start < 0

/-- No call has its address from the start of a hole. -/
def Transfer.AvoidsHoles {β : Type} (s : StoreInfo) (t : Transfer β) : Prop :=
  ∀ c ∈ t.calls, ¬ s.IsHole c.index

section Avoids

variable {β : Type} {size : β → Nat} {s : StoreInfo} {method : Method β size}

theorem avoidsHoles_stop (ending : Ending) :
    (Transfer.stop ending : Transfer β).AvoidsHoles s := by
  intro c hc
  cases hc

@[simp]
theorem calls_call (p : RunPosition) (amount : Nat) (t : Transfer β) :
    (method.call p amount t).calls =
      t.calls ++ [⟨p.addr, p.index, t.amount size, amount⟩] := by
  rw [Method.call]
  split <;> rfl

theorem avoidsHoles_call {p : RunPosition} {t : Transfer β} (amount : Nat)
    (hp : s.runs[p.index]? = some p.run) (hstart : 0 ≤ p.run.start) (h : t.AvoidsHoles s) :
    (method.call p amount t).AvoidsHoles s := by
  intro c hc
  rw [calls_call, mem_append, mem_singleton] at hc
  rcases hc with hc | rfl
  · exact h c hc
  · rintro ⟨run, hrun, hhole⟩
    rw [hp] at hrun
    cases hrun
    exact absurd hhole (Int.not_lt.mpr hstart)

theorem avoidsHoles_nextRuns {fuel : Nat} {p : RunPosition} {left : Nat} {t : Transfer β}
    (h : t.AvoidsHoles s) : (nextRuns s method fuel p left t).AvoidsHoles s := by
  induction fuel generalizing p left t with
  | zero => exact h
  | succ fuel ih =>
    rw [nextRuns]
    split
    · exact h
    split
    · exact h
    next q hq =>
    split
    · exact h
    next hstart =>
      have hcall : (method.call q (runAmount s q.run left) t).AvoidsHoles s :=
        avoidsHoles_call _ (storeNextRun_index hq) (Int.not_lt.mp hstart) h
      simp only
      split
      · exact ih hcall
      · exact hcall

theorem avoidsHoles_splitRuns {fuel : Nat} {p : RunPosition} (left : Nat)
    (hp : s.runs[p.index]? = some p.run) (hstart : 0 ≤ p.run.start) :
    (splitRuns s method fuel p left).AvoidsHoles s := by
  have hcall : ∀ amount, (method.call p amount (.stop .success)).AvoidsHoles s :=
    fun amount => avoidsHoles_call amount hp hstart (avoidsHoles_stop .success)
  rw [splitRuns]
  split
  · exact avoidsHoles_nextRuns (hcall _)
  · exact hcall _

theorem mem_calls_nextRuns {fuel : Nat} {p : RunPosition} {left : Nat} {t : Transfer β}
    {c : MethodCall} (h : c ∈ t.calls) : c ∈ (nextRuns s method fuel p left t).calls := by
  induction fuel generalizing p left t with
  | zero => exact h
  | succ fuel ih =>
    rw [nextRuns]
    split
    · exact h
    split
    · exact h
    split
    · exact h
    next q _ _ =>
      have hcall : c ∈ (method.call q (runAmount s q.run left) t).calls := by
        rw [calls_call]
        exact mem_append_left _ h
      simp only
      split
      · exact ih hcall
      · exact hcall

theorem exists_call_splitRuns (fuel : Nat) (p : RunPosition) (left : Nat) :
    ∃ c ∈ (splitRuns s method fuel p left).calls, c.index = p.index := by
  have hcall : ∀ amount, (⟨p.addr, p.index, 0, amount⟩ : MethodCall) ∈
      (method.call p amount (.stop .success)).calls := by
    intro amount
    rw [calls_call]
    exact mem_append_right _ (mem_singleton.mpr rfl)
  rw [splitRuns]
  split
  · exact ⟨_, mem_calls_nextRuns (hcall _), rfl⟩
  · exact ⟨_, hcall _, rfl⟩

end Avoids

theorem storeRead_avoidsHoles (s : StoreInfo) (mmap : Nat → Bool)
    (method : Method (List UInt8) List.length) (fuel : Nat) (addr : Int) (amount bufLen : Nat) :
    (storeRead s mmap method fuel addr amount bufLen).AvoidsHoles s := by
  rw [storeRead]
  split
  · exact avoidsHoles_stop _
  next p hp =>
  have hindex := storeFirst_index hp
  split
  · exact avoidsHoles_stop _
  next hstart =>
  have hpos := Int.not_lt.mp hstart
  simp only
  split
  · exact avoidsHoles_stop _
  split
  · exact avoidsHoles_call _ hindex hpos (avoidsHoles_stop _)
  split
  · exact avoidsHoles_stop _
  · have hsplit : (splitRuns s method fuel p (readAmount s p amount)).AvoidsHoles s :=
      avoidsHoles_splitRuns _ hindex hpos
    rw [shortRead]
    split <;> exact hsplit

/-- The checks of `store_write` before it looks for the run. -/
def WriteRefused (s : StoreInfo) (addr : Int) (len : Nat) : Prop :=
  s.flags &&& storeReadonly ≠ 0 ∨ s.PastEnd addr len ∨ s.Unaligned len

theorem storeWrite_of_not_refused {s : StoreInfo} {addr : Int} {len : Nat}
    (h : ¬ WriteRefused s addr len) (method : Method Nat id) (fuel : Nat) :
    storeWrite s method fuel addr len =
      match storeFirst s addr with
      | .error ending => .stop ending
      | .ok p =>
          if len / 2 ^ s.log2BlockSize ≤ toSizeT (p.run.length - p.offset) then
            method.call p len (.stop .success)
          else splitRuns s method fuel p len := by
  simp only [WriteRefused, not_or] at h
  rw [storeWrite, if_neg h.1, if_neg h.2.1, if_neg h.2.2]

def writesAll : Method Nat id where
  run := fun _ c => .ok c.amount
  le := by
    intro calls c answer h
    cases h
    exact le_refl _

/-- `store_write` does not look at the run it begins in. So the methods are never called with an
address from the start of a hole exactly if that run is none, or the request is refused before. -/
theorem holes_are_avoided (s : StoreInfo) (addr : Int) (amount : Nat) :
    (∀ mmap read write fuel bufLen,
        (storeRead s mmap read fuel addr amount bufLen).AvoidsHoles s ∧
          (storeWrite s write fuel addr amount).AvoidsHoles s) ↔
      ∀ p, storeFirst s addr = .ok p → p.run.start < 0 → WriteRefused s addr amount := by
  constructor
  · intro h p hp hhole
    by_contra hrefused
    have hwrite := (h (fun _ => true) ⟨fun _ _ => .error 0, by simp⟩ writesAll 0 0).2
    rw [storeWrite_of_not_refused hrefused, hp] at hwrite
    have hmem : ∃ c ∈ (if amount / 2 ^ s.log2BlockSize ≤ toSizeT (p.run.length - p.offset) then
        writesAll.call p amount (.stop .success) else splitRuns s writesAll 0 p amount).calls,
          c.index = p.index := by
      split
      · rw [calls_call]
        exact ⟨_, mem_append_right _ (mem_singleton.mpr rfl), rfl⟩
      · exact exists_call_splitRuns 0 p amount
    obtain ⟨c, hc, hindex⟩ := hmem
    apply hwrite c hc
    rw [hindex]
    exact ⟨p.run, storeFirst_index hp, hhole⟩
  · intro h mmap read write fuel bufLen
    refine ⟨storeRead_avoidsHoles s mmap read fuel addr amount bufLen, ?_⟩
    by_cases hrefused : WriteRefused s addr amount
    · rw [storeWrite]
      split
      · exact avoidsHoles_stop _
      split
      · exact avoidsHoles_stop _
      split
      · exact avoidsHoles_stop _
      next hflags hend haligned =>
        rcases hrefused with hrefused | hrefused | hrefused
        · exact absurd hrefused hflags
        · exact absurd hrefused hend
        · exact absurd hrefused haligned
    · rw [storeWrite_of_not_refused hrefused]
      cases hp : storeFirst s addr with
      | error ending => exact avoidsHoles_stop _
      | ok p =>
        have hstart : 0 ≤ p.run.start := by
          by_contra hneg
          exact hrefused (h p hp (Int.not_le.mp hneg))
        simp only
        split
        · exact avoidsHoles_call _ (storeFirst_index hp) hstart (avoidsHoles_stop _)
        · exact avoidsHoles_splitRuns _ (storeFirst_index hp) hstart

/-- Four blocks that are a hole. -/
def holeStore : StoreInfo :=
  { cls := .leaf .device
    port := 1
    flags := 0
    blockSize := 512
    runs := [⟨-1, 4⟩]
    endBlock := 4
    wrapSrc := 4
    wrapDst := 0
    blocks := 0
    log2BlockSize := 9
    name := none
    misc := [] }

/-- A block that is written to a hole is written one block before the device. -/
theorem hole_is_written :
    (storeWrite holeStore writesAll 0 0 512).calls = [⟨-1, 0, 0, 512⟩] ∧
      ¬ (storeWrite holeStore writesAll 0 0 512).AvoidsHoles holeStore := by
  have hcalls : (storeWrite holeStore writesAll 0 0 512).calls = [⟨-1, 0, 0, 512⟩] := by
    decide
  refine ⟨hcalls, fun h => ?_⟩
  apply h ⟨-1, 0, 0, 512⟩
  · rw [hcalls]
    exact mem_singleton.mpr rfl
  · exact ⟨⟨-1, 4⟩, rfl, by decide⟩

end Hurd.Libstore
