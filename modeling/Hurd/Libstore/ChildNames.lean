import Hurd.Libstore.Store
import Mathlib.Data.List.TakeWhile

/-!
# Names of children

`store_children_name` puts the names of the children of a store behind one another, each behind a
separator, and `store_open_children` of `libstore/kids.c` takes them apart again.
-/

namespace Hurd.Libstore

open List

def isalnum (c : UInt8) : Bool := 48 ≤ c ∧ c ≤ 57 ∨ 65 ≤ c ∧ c ≤ 90 ∨ 97 ≤ c ∧ c ≤ 122

structure ClassName where
  bytes : List UInt8
  ne_nil : bytes ≠ []
  alnum : ∀ b ∈ bytes, isalnum b = true
  deriving DecidableEq

def StoreClass.className (c : StoreClass) : ClassName where
  bytes := c.name
  ne_nil := by cases c with
    | leaf c => cases c <;> decide
    | concat | interleave | remap => decide
  alnum := by
    apply all_eq_true.mp
    cases c with
    | leaf c => cases c <;> decide
    | concat | interleave | remap => decide

abbrev Child := ClassName × CString

namespace Child

/-- TYPE:NAME -/
def typed (kid : Child) : List UInt8 := kid.1.bytes ++ 58 :: kid.2.bytes

end Child

/-- The separator that `store_children_name` takes: the search goes one step on behind the first one
that occurs in no name. -/
def usedSep (kids : List Child) : Option UInt8 :=
  (trySeps.dropWhile fun sep => kids.any fun kid => kid.2.bytes.contains sep).tail.head?

/-- `store_children_name`, for children that have names. -/
def childrenName (kids : List Child) : Except StoreError (List UInt8) :=
  if kids = [] then .ok []
  else (usedSep kids).elim (.error .gratuitous) fun sep =>
    .ok (kids.flatMap fun kid => sep :: kid.typed)

/-- What becomes of a name of a child. -/
inductive TypedOpen where
  /-- `store_open` -/
  | file (name : List UInt8)
  /-- The `open` method of a class. An empty name is a null pointer. -/
  | typed (cls : List UInt8) (name : Option (List UInt8))
  /-- No class has this name. -/
  | unknown
  deriving DecidableEq, Repr

def openName (name : List UInt8) : Option (List UInt8) := if name = [] then none else some name

/-- `store_typed_open`, by the names of the classes. -/
def storeTypedOpen (classes : List ClassName) (name : List UInt8) : TypedOpen :=
  let cls := name.takeWhile (· ≠ 58)
  let rest := name.dropWhile (· ≠ 58)
  if cls = [] ∧ rest ≠ [] then .file rest.tail
  else if ∃ c ∈ classes, c.bytes = cls then .typed cls (openName rest.tail)
  else if rest ≠ [] then .unknown
  else .file name

/-- The loop over the names, from a pointer on to the separator in front of the next one; a null
pointer is an empty list. The number bounds the rounds. -/
def splitNames (pfx : List UInt8) (sep : UInt8) : Nat → List UInt8 → List (List UInt8)
  | rounds + 1, _ :: rest =>
      if rest = [] then []
      else (pfx ++ rest.takeWhile (· ≠ sep)) ::
        splitNames pfx sep rounds (rest.dropWhile (· ≠ sep))
  | _, _ => []

/-- `store_open_children`, up to what it opens. -/
def storeOpenChildren (classes : List ClassName) (name : List UInt8) :
    Except StoreError (List TypedOpen) :=
  let split (pfx : List UInt8) (sep : UInt8) : Except StoreError (List TypedOpen) :=
    .ok ((splitNames pfx sep name.length name).map (storeTypedOpen classes))
  match name with
  | [] => .ok []
  | sep :: _ =>
      if isalnum sep then
        match name.dropWhile isalnum with
        | 58 :: sep :: _ => split (name.takeWhile isalnum ++ [58]) sep
        | [58] => .ok []
        | _ => .error .inval
      else split [] sep

theorem isalnum_colon : isalnum 58 = false := by decide

theorem ClassName.not_mem {type : ClassName} {c : UInt8} (hc : isalnum c = false) :
    c ∉ type.bytes := by
  intro hmem
  rw [type.alnum c hmem] at hc
  cases hc

theorem storeTypedOpen_typed {classes : List ClassName} {type : ClassName} (h : type ∈ classes)
    (name : List UInt8) :
    storeTypedOpen classes (type.bytes ++ 58 :: name) = .typed type.bytes (openName name) := by
  have hplain : ∀ b ∈ type.bytes, (decide (b ≠ 58)) = true := by
    intro b hb
    rw [decide_eq_true_iff]
    rintro rfl
    exact ClassName.not_mem isalnum_colon hb
  have hcls : (type.bytes ++ 58 :: name).takeWhile (· ≠ 58) = type.bytes := by
    rw [takeWhile_append_of_pos hplain]
    simp
  have hrest : (type.bytes ++ 58 :: name).dropWhile (· ≠ 58) = 58 :: name := by
    rw [dropWhile_append_of_pos hplain]
    simp
  simp only [storeTypedOpen, hcls, hrest]
  rw [if_neg (fun hno => type.ne_nil hno.1), if_pos ⟨type, h, rfl⟩]
  rfl

theorem Child.typed_eq (kid : Child) (classes : List ClassName) (h : kid.1 ∈ classes) :
    storeTypedOpen classes kid.typed = .typed kid.1.bytes (openName kid.2.bytes) :=
  storeTypedOpen_typed h kid.2.bytes

theorem openName_injective : Function.Injective openName := by
  intro s t h
  unfold openName at h
  split_ifs at h with hs ht ht
  · rw [hs, ht]
  · exact Option.some.inj h

theorem sep_plain {sep : UInt8} (h : sep ∈ trySeps) : isalnum sep = false ∧ sep ≠ 58 := by
  have hall : trySeps.all (fun s => !isalnum s && s != 58) = true := by decide
  simpa using all_eq_true.mp hall sep h

theorem usedSep_mem {kids : List Child} {sep : UInt8} (h : usedSep kids = some sep) :
    sep ∈ trySeps := by
  apply (dropWhile_sublist _).mem
  exact mem_of_mem_tail (mem_of_head? h)

theorem Child.not_mem_typed {sep : UInt8} (hsep : sep ∈ trySeps) {kid : Child}
    (h : sep ∉ kid.2.bytes) : sep ∉ kid.typed := by
  obtain ⟨hplain, hcolon⟩ := sep_plain hsep
  rw [Child.typed, mem_append, mem_cons]
  rintro (hcls | hc | hname)
  · rw [kid.1.alnum sep hcls] at hplain
    cases hplain
  · exact hcolon hc
  · exact h hname

theorem length_le_flatMap (sep : UInt8) (names : List (List UInt8)) :
    names.length ≤ (names.flatMap (sep :: ·)).length := by
  induction names with
  | nil => exact Nat.le_refl 0
  | cons name names ih =>
    rw [flatMap_cons, length_append, length_cons, length_cons]
    omega

theorem splitNames_part {sep : UInt8} {part tail : List UInt8} (hpart : sep ∉ part)
    (htail : tail.takeWhile (· ≠ sep) = []) (hne : part ++ tail ≠ []) (pfx : List UInt8) (c : UInt8)
    (rounds : Nat) :
    splitNames pfx sep (rounds + 1) (c :: (part ++ tail)) =
      (pfx ++ part) :: splitNames pfx sep rounds tail := by
  have hplain : ∀ b ∈ part, (decide (b ≠ sep)) = true := by
    intro b hb
    rw [decide_eq_true_iff]
    rintro rfl
    exact hpart hb
  have hnext : tail.dropWhile (· ≠ sep) = tail := by
    have hsplit := takeWhile_append_dropWhile (p := (· ≠ sep)) (l := tail)
    rwa [htail, nil_append] at hsplit
  rw [splitNames, if_neg hne, takeWhile_append_of_pos hplain,
    dropWhile_append_of_pos hplain, htail, hnext, append_nil]

theorem takeWhile_flatMap (sep : UInt8) (names : List (List UInt8)) :
    (names.flatMap (sep :: ·)).takeWhile (· ≠ sep) = [] := by
  cases names <;> simp

/-- The names that are found in a list: an empty one at the end is the end of the string. -/
def splitOff (names : List (List UInt8)) : List (List UInt8) :=
  if names.getLast? = some [] then names.dropLast else names

theorem splitNames_splitOff {sep : UInt8} {names : List (List UInt8)}
    (hsep : ∀ name ∈ names, sep ∉ name) {rounds : Nat} (hrounds : names.length ≤ rounds)
    (pfx : List UInt8) :
    splitNames pfx sep rounds (names.flatMap (sep :: ·)) = (splitOff names).map (pfx ++ ·) := by
  induction names generalizing rounds with
  | nil => cases rounds <;> rfl
  | cons name names ih =>
    obtain ⟨rounds, rfl⟩ := Nat.exists_eq_add_of_le' (Nat.le_trans (Nat.le_add_left 1 _) hrounds)
    have hname := hsep name mem_cons_self
    have hrest := ih (fun n hn => hsep n (mem_cons_of_mem _ hn)) (by simpa using hrounds)
    rw [flatMap_cons, cons_append]
    cases names with
    | nil =>
      by_cases hend : name = []
      · subst hend
        rfl
      · rw [splitNames_part hname rfl (by simpa using hend), hrest]
        simp [splitOff, hend]
    | cons next names =>
      rw [splitNames_part hname (takeWhile_flatMap sep _) (by simp), hrest]
      simp only [splitOff, List.getLast?_cons_cons, dropLast_cons_cons]
      split <;> rfl

theorem splitOff_of_ne_nil {names : List (List UInt8)} (hne : ∀ name ∈ names, name ≠ []) :
    splitOff names = names := by
  apply if_neg
  intro hlast
  exact hne [] (mem_of_getLast? hlast) rfl

theorem splitNames_flatMap {sep : UInt8} {names : List (List UInt8)}
    (hne : ∀ name ∈ names, name ≠ [])
    (hsep : ∀ name ∈ names, sep ∉ name) {rounds : Nat} (hrounds : names.length ≤ rounds) :
    splitNames [] sep rounds (names.flatMap (sep :: ·)) = names := by
  rw [splitNames_splitOff hsep hrounds, splitOff_of_ne_nil hne]
  exact map_id names

theorem sep_not_mem_splitNames {sep : UInt8} (rounds : Nat) (s : List UInt8) :
    ∀ name ∈ splitNames [] sep rounds s, sep ∉ name := by
  induction rounds generalizing s with
  | zero =>
    intro name hname
    cases hname
  | succ rounds ih =>
    cases s with
    | nil =>
      intro name hname
      cases hname
    | cons b rest =>
      intro name hname hmem
      rw [splitNames] at hname
      split at hname
      · cases hname
      · rcases mem_cons.mp hname with rfl | hrest
        · rw [nil_append] at hmem
          simpa using mem_takeWhile_imp hmem
        · exact ih _ name hrest hmem

theorem mem_of_storeTypedOpen {classes : List ClassName} {s cls name : List UInt8} {b : UInt8}
    (h : storeTypedOpen classes s = .typed cls (openName name)) (hb : b ∈ name) : b ∈ s := by
  simp only [storeTypedOpen] at h
  split_ifs at h
  have hsame : (s.dropWhile (· ≠ 58)).tail = name := openName_injective (TypedOpen.typed.inj h).2
  rw [← hsame] at hb
  exact (dropWhile_sublist _).mem (mem_of_mem_tail hb)

theorem storeOpenChildren_eq {classes : List ClassName} {sep : UInt8} (hsep : sep ∈ trySeps)
    {rest : List UInt8} :
    storeOpenChildren classes (sep :: rest) =
      .ok ((splitNames [] sep (rest.length + 1) (sep :: rest)).map (storeTypedOpen classes)) := by
  simp [storeOpenChildren, (sep_plain hsep).1]

/-- The string is split into the types and names of the children exactly if the separator is in no
name. -/
theorem children_round_trip {classes : List ClassName} {kids : List Child} {name : List UInt8}
    (hknown : ∀ kid ∈ kids, kid.1 ∈ classes) (hname : childrenName kids = .ok name) :
    storeOpenChildren classes name =
        .ok (kids.map fun kid => .typed kid.1.bytes (openName kid.2.bytes)) ↔
      ∀ sep, usedSep kids = some sep → ∀ kid ∈ kids, sep ∉ kid.2.bytes := by
  unfold childrenName at hname
  cases kids with
  | nil =>
    cases hname
    refine ⟨fun _ sep _ kid hkid => ?_, fun _ => rfl⟩
    cases hkid
  | cons kid kids =>
    rw [if_neg (cons_ne_nil _ _)] at hname
    cases hused : usedSep (kid :: kids) with
    | none =>
      rw [hused] at hname
      cases hname
    | some sep =>
      rw [hused] at hname
      have hsep := usedSep_mem hused
      have hstring : name = (List.map Child.typed (kid :: kids)).flatMap (sep :: ·) := by
        rw [flatMap_map]
        exact (Except.ok.inj hname).symm
      have hopen : storeOpenChildren classes name =
          .ok ((splitNames [] sep name.length name).map (storeTypedOpen classes)) := by
        rw [hstring, map_cons, flatMap_cons, cons_append]
        exact storeOpenChildren_eq hsep
      rw [hopen]
      constructor
      · intro heq sep' hsep' k hk hmem
        obtain rfl : sep = sep' := Option.some.inj hsep'
        -- each pair comes from a part without the separator
        have hparts := Except.ok.inj heq
        have hpair : TypedOpen.typed k.1.bytes (openName k.2.bytes) ∈
            (splitNames [] sep name.length name).map (storeTypedOpen classes) := by
          rw [hparts]
          exact mem_map.mpr ⟨k, hk, rfl⟩
        obtain ⟨part, hpart, htyped⟩ := mem_map.mp hpair
        exact sep_not_mem_splitNames _ _ part hpart (mem_of_storeTypedOpen htyped hmem)
      · intro hall
        have hsplit : splitNames [] sep name.length name =
            List.map Child.typed (kid :: kids) := by
          rw [hstring]
          apply splitNames_flatMap
          · intro part hpart
            obtain ⟨k, -, rfl⟩ := mem_map.mp hpart
            simp [Child.typed]
          · intro part hpart
            obtain ⟨k, hk, rfl⟩ := mem_map.mp hpart
            exact Child.not_mem_typed hsep (hall sep rfl k hk)
          · exact length_le_flatMap sep _
        rw [hsplit, map_map]
        congr 1
        apply map_congr_left
        intro k hk
        exact k.typed_eq classes (hknown k hk)

/-- `@a` in a concatenation, and `:@` in a file -/
def awkwardKids : List Child :=
  [(StoreClass.className .concat, ⟨[64, 97], by decide⟩),
    (StoreClass.className (.leaf .file), ⟨[58, 64], by decide⟩)]

def awkwardClasses : List ClassName :=
  [StoreClass.className .concat, StoreClass.className (.leaf .file)]

theorem children_round_trip_awkward :
    ∃ name, childrenName awkwardKids = .ok name ∧
      storeOpenChildren awkwardClasses name =
        .ok (awkwardKids.map fun kid => .typed kid.1.bytes (openName kid.2.bytes)) := by
  refine ⟨_, rfl, (children_round_trip (by decide : ∀ kid ∈ awkwardKids, kid.1 ∈ awkwardClasses)
    rfl).mpr ?_⟩
  intro sep hsep
  have hequals : usedSep awkwardKids = some 61 := rfl
  cases hequals.symm.trans hsep
  decide

/-- The name `a+b` has no `@` in it. So the string is `+file:a+b`, which is two names. -/
theorem plus_is_split :
    ∃ name, childrenName [(StoreClass.className (.leaf .file), ⟨[97, 43, 98], by decide⟩)] =
        .ok name ∧
      storeOpenChildren [StoreClass.className (.leaf .file)] name =
        .ok [.typed (StoreClass.name (.leaf .file)) (some [97]), .file [98]] :=
  ⟨_, rfl, by decide⟩

/-- `TYPE:@NAME1@NAME2` -/
def sharedForm (type : ClassName) (sep : UInt8) (names : List CString) : List UInt8 :=
  type.bytes ++ 58 :: (names.map CString.bytes).flatMap (sep :: ·)

/-- `@TYPE:NAME1@TYPE:NAME2` -/
def typedForm (type : ClassName) (sep : UInt8) (names : List CString) : List UInt8 :=
  (names.map fun name => Child.typed (type, name)).flatMap (sep :: ·)

theorem ClassName.sep_not_mem_tail (type : ClassName) {sep : UInt8} (hsep : isalnum sep = false) :
    sep ∉ type.bytes.tail := fun hmem => ClassName.not_mem hsep (mem_of_mem_tail hmem)

theorem storeOpenChildren_typedForm {classes : List ClassName} {type : ClassName} {sep : UInt8}
    (hsep : isalnum sep = false) (names : List CString) :
    storeOpenChildren classes (typedForm type sep names) =
      .ok ((splitNames [] sep (typedForm type sep names).length (typedForm type sep names)).map
        (storeTypedOpen classes)) := by
  cases names with
  | nil => rfl
  | cons name names => simp [typedForm, storeOpenChildren, hsep]

theorem storeOpenChildren_sharedForm {classes : List ClassName} {type : ClassName} {sep : UInt8}
    {names : List CString} (hne : names ≠ []) :
    storeOpenChildren classes (sharedForm type sep names) =
      .ok ((splitNames (type.bytes ++ [58]) sep (sharedForm type sep names).length
        (sharedForm type sep names)).map (storeTypedOpen classes)) := by
  obtain ⟨name, rest, rfl⟩ := exists_cons_of_ne_nil hne
  obtain ⟨c, cs, htype⟩ := exists_cons_of_ne_nil type.ne_nil
  have hc : isalnum c = true := type.alnum c (by rw [htype]; exact mem_cons_self)
  have htake : (sharedForm type sep (name :: rest)).takeWhile isalnum = type.bytes := by
    rw [sharedForm, takeWhile_append_of_pos type.alnum]
    simp [isalnum_colon]
  have hdrop : (sharedForm type sep (name :: rest)).dropWhile isalnum =
      58 :: sep :: (name.bytes ++ (rest.map CString.bytes).flatMap (sep :: ·)) := by
    rw [sharedForm, dropWhile_append_of_pos type.alnum]
    simp [isalnum_colon]
  have hform : ∃ tail, sharedForm type sep (name :: rest) = c :: tail := by
    rw [sharedForm, htype]
    exact ⟨_, rfl⟩
  obtain ⟨tail, hform⟩ := hform
  rw [hform] at htake hdrop ⊢
  simp only [storeOpenChildren, hc, if_true, htake, hdrop]

theorem storeTypedOpen_plain {classes : List ClassName} {s : List UInt8} (h : (58 : UInt8) ∉ s)
    (cls name : List UInt8) : storeTypedOpen classes s ≠ .typed cls (some name) := by
  have hrest : s.dropWhile (· ≠ 58) = [] := by
    apply dropWhile_eq_nil_iff.mpr
    intro b hb
    rw [decide_eq_true_iff]
    rintro rfl
    exact h hb
  simp only [storeTypedOpen, hrest]
  split_ifs <;> simp [openName]

theorem eq_of_shift {α : Type} {x : α} {l : List α} (h : x :: l.dropLast = l) :
    ∀ y ∈ l, y = x := by
  induction l generalizing x with
  | nil => cases h
  | cons a l ih =>
    obtain ⟨rfl, htail⟩ := List.cons.inj h
    cases l with
    | nil => simp
    | cons b l =>
      intro y hy
      rcases mem_cons.mp hy with rfl | hy
      · rfl
      · exact ih htail y hy

theorem splitNames_within {sep c : UInt8} {part : List UInt8} {names : List (List UInt8)}
    (hpart : sep ∉ part) (hsep : ∀ name ∈ names, sep ∉ name) (hne : names ≠ []) {rounds : Nat}
    (hrounds : names.length < rounds) (pfx : List UInt8) :
    splitNames pfx sep rounds (c :: (part ++ names.flatMap (sep :: ·))) =
      (pfx ++ part) :: (splitOff names).map (pfx ++ ·) := by
  obtain ⟨rounds, rfl⟩ := Nat.exists_eq_add_of_lt hrounds
  have hmore : part ++ names.flatMap (sep :: ·) ≠ [] := by
    cases names with
    | nil => exact absurd rfl hne
    | cons name names => simp
  rw [splitNames_part hpart (takeWhile_flatMap sep _) hmore, splitNames_splitOff hsep (by omega)]

section SharedType

variable {classes : List ClassName} {type : ClassName} {sep : UInt8} {names : List CString}

theorem opens_typed (htype : type ∈ classes) (names : List (List UInt8)) :
    (names.map (type.bytes ++ [58] ++ ·)).map (storeTypedOpen classes) =
      names.map fun name => .typed type.bytes (openName name) := by
  rw [map_map]
  apply map_congr_left
  intro name _
  rw [Function.comp_apply, append_assoc]
  exact storeTypedOpen_typed htype name

theorem sharedForm_opens (htype : type ∈ classes) (hsep : isalnum sep = false) (hcolon : sep ≠ 58)
    (hne : names ≠ []) (hplain : ∀ name ∈ names, sep ∉ name.bytes) :
    storeOpenChildren classes (sharedForm type sep names) =
      .ok (((type.bytes.tail ++ [58]) :: splitOff (names.map CString.bytes)).map fun name =>
        .typed type.bytes (openName name)) := by
  obtain ⟨c, cs, hbytes⟩ := exists_cons_of_ne_nil type.ne_nil
  have htail : type.bytes.tail = cs := by rw [hbytes, tail_cons]
  have hpart : sep ∉ cs ++ [58] := by
    have hcs := type.sep_not_mem_tail hsep
    rw [htail] at hcs
    simpa using ⟨hcs, hcolon⟩
  have hform : sharedForm type sep names =
      c :: ((cs ++ [58]) ++ (names.map CString.bytes).flatMap (sep :: ·)) := by
    simp [sharedForm, hbytes]
  have hlen : (names.map CString.bytes).length < (sharedForm type sep names).length := by
    have hle := length_le_flatMap sep (names.map CString.bytes)
    rw [hform, length_cons, length_append]
    omega
  rw [storeOpenChildren_sharedForm hne, ← opens_typed htype]
  nth_rewrite 2 [hform]
  rw [splitNames_within hpart (by simpa using hplain) (by simpa using hne) hlen, htail,
    map_cons (f := (type.bytes ++ [58] ++ ·))]

theorem typedForm_opens (htype : type ∈ classes) (hsep : isalnum sep = false) (hcolon : sep ≠ 58)
    (hplain : ∀ name ∈ names, sep ∉ name.bytes) :
    storeOpenChildren classes (typedForm type sep names) =
      .ok ((names.map CString.bytes).map fun name => .typed type.bytes (openName name)) := by
  have hform : typedForm type sep names =
      ((names.map CString.bytes).map (type.bytes ++ [58] ++ ·)).flatMap (sep :: ·) := by
    simp [typedForm, Child.typed, flatMap_map]
  rw [storeOpenChildren_typedForm hsep, ← opens_typed htype, hform, splitNames_flatMap]
  · intro part hpart
    obtain ⟨name, -, rfl⟩ := mem_map.mp hpart
    simp
  · intro part hpart
    obtain ⟨bytes, hbytes, rfl⟩ := mem_map.mp hpart
    obtain ⟨name, hname, rfl⟩ := mem_map.mp hbytes
    simp [ClassName.not_mem hsep, hcolon, hplain name hname]
  · exact length_le_flatMap sep _

theorem sharedForm_colon (htype : type ∈ classes) (hne : names ≠ [])
    (hplain : ∀ name ∈ names, 58 ∉ name.bytes) :
    storeOpenChildren classes (sharedForm type 58 names) =
      .ok ((type.bytes.tail :: [] :: splitOff (names.map CString.bytes)).map fun name =>
        .typed type.bytes (openName name)) := by
  obtain ⟨c, cs, hbytes⟩ := exists_cons_of_ne_nil type.ne_nil
  have htail : type.bytes.tail = cs := by rw [hbytes, tail_cons]
  have hpart : 58 ∉ cs := by
    rw [← htail]
    exact type.sep_not_mem_tail isalnum_colon
  have hform : sharedForm type 58 names =
      c :: (cs ++ ([] :: names.map CString.bytes).flatMap (58 :: ·)) := by
    simp [sharedForm, hbytes]
  have hlen : ([] :: names.map CString.bytes).length < (sharedForm type 58 names).length := by
    have hle := length_le_flatMap 58 ([] :: names.map CString.bytes)
    rw [hform]
    simp only [length_cons, length_append] at hle ⊢
    omega
  have hfirst : splitOff ([] :: names.map CString.bytes) =
      [] :: splitOff (names.map CString.bytes) := by
    obtain ⟨name, rest, rfl⟩ := exists_cons_of_ne_nil hne
    rw [map_cons, splitOff, splitOff, List.getLast?_cons_cons, dropLast_cons_cons]
    split <;> rfl
  rw [storeOpenChildren_sharedForm hne, ← opens_typed htype]
  nth_rewrite 2 [hform]
  rw [splitNames_within hpart (by simpa using hplain) (cons_ne_nil _ _) hlen, htail, hfirst]
  simp only [map_cons]

theorem typedForm_colon {opens : List TypedOpen}
    (h : storeOpenChildren classes (typedForm type 58 names) = .ok opens) (cls name : List UInt8) :
    TypedOpen.typed cls (some name) ∉ opens := by
  rw [storeOpenChildren_typedForm isalnum_colon] at h
  cases h
  intro hmem
  obtain ⟨part, hpart, hopen⟩ := mem_map.mp hmem
  exact storeTypedOpen_plain (sep_not_mem_splitNames _ _ part hpart) cls name hopen

theorem mem_splitOff_head {name : List UInt8} (h : name ≠ []) (rest : List (List UInt8)) :
    name ∈ splitOff (name :: rest) := by
  unfold splitOff
  cases rest with
  | nil => simp [h]
  | cons next rest =>
    rw [dropLast_cons_cons]
    split <;> exact mem_cons_self

theorem typedForm_colon_nil {name : CString} {rest : List CString} {opens : List TypedOpen}
    (hname : name.bytes = [])
    (h : storeOpenChildren classes (typedForm type 58 (name :: rest)) = .ok opens) :
    ∀ second ∈ opens[1]?, second = .file [] := by
  have hform : typedForm type 58 (name :: rest) =
      58 :: (type.bytes ++ 58 :: (rest.map fun n => Child.typed (type, n)).flatMap (58 :: ·)) := by
    simp [typedForm, Child.typed, hname]
  have hfile : storeTypedOpen classes [] = .file [] := by
    have hno : ¬∃ c ∈ classes, c.bytes = [] := by
      rintro ⟨c, _, hc⟩
      exact c.ne_nil hc
    simp [storeTypedOpen, hno]
  rw [storeOpenChildren_typedForm isalnum_colon, hform, length_cons,
    splitNames_part (ClassName.not_mem isalnum_colon) (by simp) (by simp)] at h
  cases h
  rw [length_append, length_cons, ← Nat.add_assoc, splitNames]
  intro second hsecond
  split at hsecond
  · cases hsecond
  · rw [takeWhile_flatMap] at hsecond
    cases hsecond
    exact hfile

/-- Children are never opened as if their type stood in front of each name: the search of the names
begins within the type. -/
theorem sharedForm_ne_typedForm (htype : type ∈ classes) (hsep : isalnum sep = false)
    (hne : names ≠ []) (hplain : ∀ name ∈ names, sep ∉ name.bytes) :
    storeOpenChildren classes (sharedForm type sep names) ≠
      storeOpenChildren classes (typedForm type sep names) := by
  intro heq
  by_cases hcolon : sep = 58
  · subst hcolon
    obtain ⟨name, rest, rfl⟩ := exists_cons_of_ne_nil hne
    rw [sharedForm_colon htype hne hplain] at heq
    have hname : name.bytes = [] := by
      by_contra hname
      apply typedForm_colon heq.symm type.bytes name.bytes
      apply mem_map.mpr
      refine ⟨name.bytes, ?_, by rw [openName, if_neg hname]⟩
      exact mem_cons_of_mem _ (mem_cons_of_mem _ (mem_splitOff_head hname _))
    have hfile := typedForm_colon_nil hname heq.symm _ rfl
    cases hfile
  · rw [sharedForm_opens htype hsep hcolon hne hplain,
      typedForm_opens htype hsep hcolon hplain] at heq
    have hshift := (map_inj_right
      fun s t hst => openName_injective (TypedOpen.typed.inj hst).2).mp (Except.ok.inj heq)
    unfold splitOff at hshift
    split at hshift
    · -- every name is what is left of the type, the last one too
      rename_i hlast
      have hnil := eq_of_shift hshift [] (mem_of_getLast? hlast)
      simp at hnil
    · have hlen := congrArg List.length hshift
      rw [length_cons] at hlen
      omega

end SharedType

/-- `file:@a@b` is read as `file:ile:`, `file:a` and `file:b`. -/
theorem sharedForm_file :
    storeOpenChildren [StoreClass.className (.leaf .file)]
        (sharedForm (StoreClass.className (.leaf .file)) 64
          [⟨[97], by decide⟩, ⟨[98], by decide⟩]) ≠
      storeOpenChildren [StoreClass.className (.leaf .file)]
        (typedForm (StoreClass.className (.leaf .file)) 64
          [⟨[97], by decide⟩, ⟨[98], by decide⟩]) := by
  decide

theorem sharedForm_ne_typedForm_file :
    storeOpenChildren [StoreClass.className (.leaf .file)]
        (sharedForm (StoreClass.className (.leaf .file)) 64 [⟨[97], by decide⟩]) ≠
      storeOpenChildren [StoreClass.className (.leaf .file)]
        (typedForm (StoreClass.className (.leaf .file)) 64 [⟨[97], by decide⟩]) :=
  sharedForm_ne_typedForm (by decide) (by decide) (by decide) (by decide)

end Hurd.Libstore
