import Hurd.Tmpfs.Space

/-!
# Listing a directory

`diskfs_get_directs` of `tmpfs/dir.c`. It makes up the first two entries as it goes, and counts with
one variable the positions in the directory and the entries it returns.
-/

namespace Hurd.Tmpfs

open State (entsize)

/-- `struct tmpfs_dirent`, with the `namelen` bytes of the name. -/
structure TmpfsDirent where
  dn : Nat
  name : List UInt8
  deriving DecidableEq

/-- `struct dirent`; the type is `DT_DIR` or `DT_UNKNOWN`. -/
structure Dirent where
  fileno : Nat
  isDir : Bool
  name : List UInt8
  reclen : Nat
  deriving DecidableEq

/-- A directory node. Entering and removing an entry keep `st_size` in step with the list. -/
structure Directory (cfg : Config) where
  ino : Nat
  /-- `u.dir.dotdot`, which is null for the root only. -/
  dotdot : Option Nat
  entries : List TmpfsDirent
  stSize : Nat
  stSize_ge : (entries.map fun d => entsize cfg d.name.length).sum ≤ stSize

/-- What `diskfs_get_directs` returns: the records in the buffer, `datacnt` and `amt`. -/
structure Listing where
  data : List Dirent
  datacnt : Nat
  amt : Nat
  deriving DecidableEq

def direntBytes (l : List Dirent) : Nat := (l.map (·.reclen)).sum

section Code

variable (cfg : Config)

/-- The record of an entry of the list. -/
def TmpfsDirent.record (d : TmpfsDirent) : Dirent := ⟨d.dn, false, d.name, entsize cfg d.name.length⟩

/-- The loop that skips ahead to the desired entry. -/
def skipAhead (entry : Nat) : List TmpfsDirent → Nat → List TmpfsDirent × Nat
  | [], i => ([], i)
  | d :: ds, i => if i < entry then skipAhead entry ds (i + 1) else (d :: ds, i)

/-- The loop that fills in the buffer, in which `used` bytes are taken. -/
def fillEntries (bufsiz : Nat) (n : Int) : List TmpfsDirent → Nat → Nat → List Dirent × Nat
  | [], _, i => ([], i)
  | d :: ds, used, i =>
      let rlen := entsize cfg d.name.length
      if bufsiz < rlen + used ∨ (0 ≤ n ∧ n < i) then ([], i)
      else
        let rest := fillEntries bufsiz n ds (used + rlen) (i + 1)
        (d.record cfg :: rest.1, rest.2)

end Code

namespace Directory

variable {cfg : Config} (dp : Directory cfg)

def dot : Dirent := ⟨dp.ino, true, [46], entsize cfg 1⟩

/-- The number of the parent; 2 is one that no node has. -/
def parent : Dirent := ⟨dp.dotdot.getD 2, true, [46, 46], entsize cfg 2⟩

/-- The entries that are synthesized on the fly. -/
def synthesized (entry : Nat) : List Dirent :=
  (if entry ≤ 0 then [dp.dot] else []) ++ if entry ≤ 1 then [dp.parent] else []

/-- `bufsiz`, with its value when there is no limit. -/
def room (bufsiz : Nat) : Nat := if bufsiz = 0 then dp.stSize + 2 * entsize cfg 2 else bufsiz

/-- `diskfs_get_directs` with a buffer of `datacnt` bytes, and with whether `mmap` succeeds. It
fails with `ENOMEM` only. -/
def getDirects (entry : Nat) (n : Int) (datacnt bufsiz : Nat) (mmap : Bool) : Option Listing :=
  let bufsiz := dp.room bufsiz
  if datacnt < bufsiz ∧ ¬mmap then none
  else
    let (ds, i) := skipAhead entry dp.entries 2
    if i < entry then some ⟨[], 0, 0⟩
    else
      let synthesized := dp.synthesized entry
      let (filled, i) := fillEntries cfg bufsiz n ds (direntBytes synthesized) i
      some ⟨synthesized ++ filled, direntBytes (synthesized ++ filled), i - entry⟩

end Directory

/-- The records that fit in so many bytes. -/
def fitting : Nat → List Dirent → List Dirent
  | _, [] => []
  | room, d :: ds => if d.reclen ≤ room then d :: fitting (room - d.reclen) ds else []

section Fitting

theorem fitting_nil (room : Nat) : fitting room [] = [] := rfl

theorem fitting_cons (room : Nat) (d : Dirent) (ds : List Dirent) :
    fitting room (d :: ds) =
      if d.reclen ≤ room then d :: fitting (room - d.reclen) ds else [] := rfl

theorem direntBytes_append (l l' : List Dirent) :
    direntBytes (l ++ l') = direntBytes l + direntBytes l' := by
  simp [direntBytes]

theorem direntBytes_fitting_le (room : Nat) (l : List Dirent) :
    direntBytes (fitting room l) ≤ room := by
  induction l generalizing room with
  | nil => exact Nat.zero_le _
  | cons d ds ih =>
    rw [fitting_cons]
    split
    · have hrest := ih (room - d.reclen)
      simp only [direntBytes, List.map_cons, List.sum_cons] at hrest ⊢
      omega
    · exact Nat.zero_le _

theorem fitting_append {room : Nat} {l : List Dirent} (h : direntBytes l ≤ room)
    (l' : List Dirent) : fitting room (l ++ l') = l ++ fitting (room - direntBytes l) l' := by
  induction l generalizing room with
  | nil => rfl
  | cons d ds ih =>
    simp only [direntBytes, List.map_cons, List.sum_cons] at h
    rw [List.cons_append, fitting_cons, if_pos (by omega), ih (by simp only [direntBytes]; omega),
      Nat.sub_sub]
    rfl

theorem fitting_eq_self {room : Nat} {l : List Dirent} (h : direntBytes l ≤ room) :
    fitting room l = l := by
  simpa [fitting_nil] using fitting_append h []

theorem fitting_take (room m : Nat) (l : List Dirent) :
    fitting room (l.take m) = (fitting room l).take m := by
  induction l generalizing room m with
  | nil => rw [List.take_nil, fitting_nil, List.take_nil]
  | cons d ds ih =>
    cases m with
    | zero => rw [List.take_zero, List.take_zero, fitting_nil]
    | succ m =>
      rw [List.take_succ_cons, fitting_cons, fitting_cons]
      split
      · rw [ih, List.take_succ_cons]
      · rfl

end Fitting

namespace Directory

variable {cfg : Config} (dp : Directory cfg)

def all : List Dirent := dp.dot :: dp.parent :: dp.entries.map (·.record cfg)

/-- The entries from `k` on, at most `n` of them if that is not negative, within the buffer. -/
def wanted (k : Nat) (n : Int) (bufsiz : Nat) : List Dirent :=
  let rest := if n < 0 then dp.all.drop k else (dp.all.drop k).take n.toNat
  if bufsiz = 0 then rest else fitting bufsiz rest

/-- A call has returned what is asked for. -/
def Lists (k : Nat) (n : Int) (bufsiz : Nat) (out : Listing) : Prop :=
  out.data = dp.wanted k n bufsiz ∧ out.amt = out.data.length ∧
    out.datacnt = direntBytes out.data ∧ out.datacnt ≤ dp.room bufsiz

instance (k : Nat) (n : Int) (bufsiz : Nat) (out : Listing) :
    Decidable (dp.Lists k n bufsiz out) :=
  inferInstanceAs (Decidable (_ ∧ _))

/-- How many entries there is room for from `k` on. -/
def fits (k bufsiz : Nat) : Nat := (fitting (dp.room bufsiz) (dp.all.drop k)).length

end Directory

/-- How many entries the code lets through when asked for `n` from `k` on. -/
def countLimit (k n : Nat) : Nat := max (2 - k) (n + 1 - k)

/-- There is room for the entries made up, and the limit that is applied is the one asked for, or
neither of them cuts anything off. -/
def Directory.CountsRight {cfg : Config} (dp : Directory cfg) (k : Nat) (n : Int) (bufsiz : Nat) :
    Prop :=
  direntBytes (dp.synthesized k) ≤ dp.room bufsiz ∧
    (n < 0 ∨ countLimit k n.toNat = n.toNat ∨
      dp.fits k bufsiz ≤ n.toNat ∧ dp.fits k bufsiz ≤ countLimit k n.toNat)

instance {cfg : Config} (dp : Directory cfg) (k : Nat) (n : Int) (bufsiz : Nat) :
    Decidable (dp.CountsRight k n bufsiz) :=
  inferInstanceAs (Decidable (_ ∧ _))

section Call

variable {cfg : Config} {dp : Directory cfg} {k datacnt bufsiz : Nat} {n : Int} {mmap : Bool}

theorem skipAhead_eq (entry i : Nat) (ds : List TmpfsDirent) :
    skipAhead entry ds i = (ds.drop (entry - i), i + min (entry - i) ds.length) := by
  induction ds generalizing i with
  | nil => simp [skipAhead]
  | cons d ds ih =>
    rw [skipAhead]
    split
    next h =>
      obtain ⟨m, hm⟩ := Nat.exists_eq_add_of_lt h
      rw [ih, show entry - i = m + 1 by omega, show entry - (i + 1) = m by omega,
        List.drop_succ_cons, List.length_cons, Nat.add_min_add_right]
      congr 1
      omega
    next h => simp [show entry - i = 0 by omega]

theorem fillEntries_eq {u i : Nat} (h : u ≤ bufsiz) (ds : List TmpfsDirent) :
    (fillEntries cfg bufsiz n ds u i).1 = fitting (bufsiz - u)
      (if n < 0 then ds.map (·.record cfg) else (ds.map (·.record cfg)).take (n.toNat + 1 - i)) := by
  induction ds generalizing u i with
  | nil => simp [fillEntries, fitting_nil]
  | cons d ds ih =>
    have hlen : (d.record cfg).reclen = entsize cfg d.name.length := rfl
    rw [fillEntries]
    dsimp only
    by_cases hroom : bufsiz < entsize cfg d.name.length + u
    · have hno : ¬ (d.record cfg).reclen ≤ bufsiz - u := by omega
      rw [if_pos (.inl hroom), List.map_cons]
      split
      · rw [fitting_cons, if_neg hno]
      · rw [fitting_take, fitting_cons, if_neg hno, List.take_nil]
    · have hyes : (d.record cfg).reclen ≤ bufsiz - u := by omega
      by_cases hn : n < 0
      · have hrest := ih (u := u + entsize cfg d.name.length) (i := i + 1) (by omega)
        rw [if_pos hn] at hrest ⊢
        rw [if_neg (by omega), List.map_cons, fitting_cons, if_pos hyes, hlen, Nat.sub_sub,
          ← hrest]
      · have hrest := ih (u := u + entsize cfg d.name.length) (i := i + 1) (by omega)
        rw [if_neg hn] at hrest ⊢
        by_cases hi : n < i
        · rw [if_pos (.inr ⟨by omega, hi⟩), show n.toNat + 1 - i = 0 by omega]
          rfl
        · rw [if_neg (by omega), show n.toNat + 1 - i = (n.toNat + 1 - (i + 1)) + 1 by omega,
            List.map_cons, List.take_succ_cons, fitting_cons, if_pos hyes, hlen, Nat.sub_sub,
            ← hrest]

theorem fillEntries_count {used i : Nat} (ds : List TmpfsDirent) :
    (fillEntries cfg bufsiz n ds used i).2 =
      i + (fillEntries cfg bufsiz n ds used i).1.length := by
  induction ds generalizing used i with
  | nil => rfl
  | cons d ds ih =>
    rw [fillEntries]
    dsimp only
    split
    · rfl
    · rw [ih, List.length_cons]
      omega

end Call

namespace Directory

variable {cfg : Config} (dp : Directory cfg) {k datacnt bufsiz : Nat} {n : Int} {mmap : Bool}

theorem synthesized_append (k : Nat) :
    dp.synthesized k ++ (dp.entries.drop (k - 2)).map (·.record cfg) = dp.all.drop k := by
  rcases k with _ | _ | k
  · rfl
  · rfl
  · simp [synthesized, all]

theorem synthesized_length (k : Nat) : (dp.synthesized k).length = 2 - k := by
  rcases k with _ | _ | k
  · rfl
  · rfl
  · simp [synthesized]

theorem entsize_mono {a b : Nat} (h : a ≤ b) : entsize cfg a ≤ entsize cfg b := by
  simp only [entsize]
  omega

theorem direntBytes_drop_le (k : Nat) : direntBytes (dp.all.drop k) ≤ dp.room 0 := by
  have hdrop : direntBytes (dp.all.drop k) ≤ direntBytes dp.all := by
    rw [← List.take_append_drop k dp.all, direntBytes_append, List.take_append_drop]
    exact Nat.le_add_left _ _
  have hrecords : direntBytes (dp.entries.map (·.record cfg)) ≤ dp.stSize := by
    rw [direntBytes, List.map_map]
    exact dp.stSize_ge
  have hdot : entsize cfg 1 ≤ entsize cfg 2 := entsize_mono (by decide)
  have hall : direntBytes dp.all =
      entsize cfg 1 + (entsize cfg 2 + direntBytes (dp.entries.map (·.record cfg))) := rfl
  rw [room, if_pos rfl]
  omega

theorem wanted_eq (k : Nat) (n : Int) (bufsiz : Nat) :
    dp.wanted k n bufsiz =
      if n < 0 then fitting (dp.room bufsiz) (dp.all.drop k)
      else (fitting (dp.room bufsiz) (dp.all.drop k)).take n.toNat := by
  rw [wanted, ← fitting_take]
  by_cases hsize : bufsiz = 0
  · subst hsize
    have htake : direntBytes ((dp.all.drop k).take n.toNat) ≤ dp.room 0 := by
      refine le_trans ?_ (dp.direntBytes_drop_le k)
      rw [← List.take_append_drop n.toNat (dp.all.drop k), direntBytes_append,
        List.take_append_drop]
      exact Nat.le_add_right _ _
    rw [fitting_eq_self htake, fitting_eq_self (dp.direntBytes_drop_le k), if_pos rfl]
  · rw [if_neg hsize, room, if_neg hsize]
    split <;> rfl

theorem direntBytes_wanted_le (k : Nat) (n : Int) (bufsiz : Nat) :
    direntBytes (dp.wanted k n bufsiz) ≤ dp.room bufsiz := by
  rw [wanted_eq]
  split
  · exact direntBytes_fitting_le _ _
  · rw [← fitting_take]
    exact direntBytes_fitting_le _ _

theorem getDirects_eq (hroom : direntBytes (dp.synthesized k) ≤ dp.room bufsiz)
    (hmmap : mmap = true ∨ dp.room bufsiz ≤ datacnt) :
    ∃ out, dp.getDirects k n datacnt bufsiz mmap = some out ∧
      out.amt = out.data.length ∧ out.datacnt = direntBytes out.data ∧
      out.data = if n < 0 then fitting (dp.room bufsiz) (dp.all.drop k)
        else (fitting (dp.room bufsiz) (dp.all.drop k)).take (countLimit k n.toNat) := by
  have hmem : ¬ (datacnt < dp.room bufsiz ∧ ¬mmap) := by
    rintro ⟨hlt, hno⟩
    exact hmmap.elim hno (Nat.not_le.mpr hlt)
  rw [getDirects]
  dsimp only
  rw [if_neg hmem, skipAhead_eq]
  dsimp only
  split
  next hpast =>
    have hnil : dp.all.drop k = [] := by
      apply List.drop_eq_nil_of_le
      simp only [all, List.length_cons, List.length_map]
      omega
    exact ⟨_, rfl, rfl, rfl, by simp [hnil, fitting]⟩
  next hin =>
    refine ⟨_, rfl, ?_, rfl, ?_⟩
    · dsimp only
      rw [fillEntries_count, List.length_append, synthesized_length]
      omega
    · have hall : (dp.synthesized k).take (countLimit k n.toNat) = dp.synthesized k :=
        List.take_of_length_le ((dp.synthesized_length k).trans_le (le_max_left _ _))
      have hleft : countLimit k n.toNat - (2 - k) =
          n.toNat + 1 - (2 + min (k - 2) dp.entries.length) := by
        simp only [countLimit]
        omega
      dsimp only
      rw [fillEntries_eq hroom, ← fitting_append hroom]
      split
      · rw [synthesized_append]
      · rw [← fitting_take, ← synthesized_append, List.take_append, synthesized_length, hall, hleft]

theorem getDirects_iff (k : Nat) (n : Int) (bufsiz : Nat)
    (hmmap : mmap = true ∨ dp.room bufsiz ≤ datacnt) :
    ∃ out, dp.getDirects k n datacnt bufsiz mmap = some out ∧
      (dp.Lists k n bufsiz out ↔ dp.CountsRight k n bufsiz) := by
  by_cases hroom : direntBytes (dp.synthesized k) ≤ dp.room bufsiz
  · obtain ⟨out, hout, hamt, hcnt, hdata⟩ := dp.getDirects_eq hroom hmmap
    refine ⟨out, hout, ?_⟩
    have hlists : dp.Lists k n bufsiz out ↔ out.data = dp.wanted k n bufsiz := by
      constructor
      · exact And.left
      · intro heq
        refine ⟨heq, hamt, hcnt, ?_⟩
        rw [hcnt, heq]
        exact dp.direntBytes_wanted_le k n bufsiz
    rw [hlists, hdata, wanted_eq, CountsRight]
    by_cases hn : n < 0
    · simp [hn, hroom]
    · rw [if_neg hn, if_neg hn, List.take_eq_take_iff]
      simp only [hn, hroom, true_and, false_or, fits]
      omega
  · -- more has been written than the buffer holds
    obtain ⟨out, hout, hle⟩ : ∃ out, dp.getDirects k n datacnt bufsiz mmap = some out ∧
        direntBytes (dp.synthesized k) ≤ out.datacnt := by
      have hmem : ¬ (datacnt < dp.room bufsiz ∧ ¬mmap) := fun h =>
        hmmap.elim h.2 (Nat.not_le.mpr h.1)
      rw [getDirects]
      dsimp only
      rw [if_neg hmem, skipAhead_eq]
      dsimp only
      split
      next hpast =>
        have hnil : dp.synthesized k = [] :=
          List.length_eq_zero_iff.mp ((dp.synthesized_length k).trans (by omega))
        exact ⟨_, rfl, by rw [hnil]; exact Nat.zero_le _⟩
      next =>
        refine ⟨_, rfl, ?_⟩
        dsimp only
        rw [direntBytes_append]
        exact Nat.le_add_right _ _
    exact ⟨out, hout, iff_of_false (fun h => hroom (hle.trans h.2.2.2)) fun h => hroom h.1⟩

end Directory

/-- The arguments of a call, but for its first entry. -/
structure Chunk where
  n : Int
  datacnt : Nat
  bufsiz : Nat
  mmap : Bool

namespace Directory

variable {cfg : Config} (dp : Directory cfg)

/-- Calls that each go on behind what has been returned: all records, and the next entry. -/
def readChunks : Nat → List Chunk → Option (List Dirent × Nat)
  | k, [] => some ([], k)
  | k, c :: cs =>
      (dp.getDirects k c.n c.datacnt c.bufsiz c.mmap).bind fun out =>
        (readChunks (k + out.amt) cs).map fun rest => (out.data ++ rest.1, rest.2)

/-- Each of the calls counts right. -/
def ChunksRight : Nat → List Chunk → Prop
  | _, [] => True
  | k, c :: cs =>
      dp.CountsRight k c.n c.bufsiz ∧
        ∀ out ∈ dp.getDirects k c.n c.datacnt c.bufsiz c.mmap, ChunksRight (k + out.amt) cs

theorem wanted_prefix (k : Nat) (n : Int) (bufsiz : Nat) :
    dp.wanted k n bufsiz = (dp.all.drop k).take (dp.wanted k n bufsiz).length := by
  have hfit : ∀ room l, fitting room l <+: l := by
    intro room l
    induction l generalizing room with
    | nil => exact List.prefix_refl _
    | cons d ds ih =>
      rw [fitting]
      split
      · exact List.cons_prefix_cons.mpr ⟨rfl, ih _⟩
      · exact List.nil_prefix
  apply List.prefix_iff_eq_take.mp
  rw [wanted_eq]
  split
  · exact hfit _ _
  · exact (List.take_prefix _ _).trans (hfit _ _)

theorem readChunks_eq {k stop : Nat} {cs : List Chunk} {data : List Dirent}
    (h : dp.readChunks k cs = some (data, stop)) (hright : dp.ChunksRight k cs) :
    k ≤ stop ∧ data = (dp.all.drop k).take (stop - k) := by
  induction cs generalizing k data with
  | nil =>
    cases h
    simp
  | cons c cs ih =>
    obtain ⟨out, hout, hrest⟩ := Option.bind_eq_some_iff.mp h
    obtain ⟨⟨data', stop'⟩, htail, heq⟩ := Option.map_eq_some_iff.mp hrest
    obtain ⟨rfl, rfl⟩ := Prod.mk.inj heq
    obtain ⟨hle, hdata⟩ := ih htail (hright.2 out hout)
    have hmmap : c.mmap = true ∨ dp.room c.bufsiz ≤ c.datacnt := by
      by_contra hno
      rw [not_or] at hno
      rw [getDirects, if_pos ⟨Nat.not_le.mp hno.2, hno.1⟩] at hout
      cases hout
    obtain ⟨out', hout', hlists⟩ := dp.getDirects_iff k c.n c.bufsiz hmmap
    cases hout.symm.trans hout'
    obtain ⟨hwanted, hamt, -⟩ := hlists.mpr hright.1
    have hfirst : out.data = (dp.all.drop k).take out.amt := by
      rw [hamt, hwanted]
      exact dp.wanted_prefix k c.n c.bufsiz
    refine ⟨by omega, ?_⟩
    rw [hdata, hfirst, ← List.drop_drop, ← List.take_add]
    congr 1
    omega

end Directory

/-- A call returns the entries asked for exactly when the records made up fit and the code's limit
on the number of entries cuts off what the one asked for does. Chunks read by such calls follow
each other in the sequence of all entries without a gap. -/
theorem get_directs_iff {cfg : Config} (dp : Directory cfg) :
    (∀ k n datacnt bufsiz mmap, (mmap = true ∨ dp.room bufsiz ≤ datacnt) →
      ∃ out, dp.getDirects k n datacnt bufsiz mmap = some out ∧
        (dp.Lists k n bufsiz out ↔ dp.CountsRight k n bufsiz)) ∧
      ∀ k cs data stop, dp.readChunks k cs = some (data, stop) → dp.ChunksRight k cs →
        k ≤ stop ∧ data = (dp.all.drop k).take (stop - k) :=
  ⟨fun k n _ bufsiz _ hmmap => dp.getDirects_iff k n bufsiz hmmap,
    fun _ _ _ _ h hright => dp.readChunks_eq h hright⟩

def threeFiles : Directory megabyte where
  ino := 100
  dotdot := none
  entries := [⟨201, [97]⟩, ⟨202, [98]⟩, ⟨203, [99]⟩]
  stSize := 48
  stSize_ge := le_refl 48

theorem get_directs_iff_parent : ∃ out, threeFiles.getDirects 1 2 0 0 true = some out ∧
    threeFiles.Lists 1 2 0 out := by
  obtain ⟨out, hout, hlists⟩ := (get_directs_iff threeFiles).1 1 2 0 0 true (.inl rfl)
  exact ⟨out, hout, hlists.mpr (by decide)⟩

/-- Read by two entries at a time, the directory ends behind the first call, which returns three. -/
theorem pairs_end_early :
    (∃ out, threeFiles.getDirects 0 2 0 0 true = some out ∧ ¬ threeFiles.Lists 0 2 0 out) ∧
      threeFiles.readChunks 0 (List.replicate 5 ⟨2, 0, 0, true⟩) =
        some (threeFiles.all.take 3, 3) ∧ threeFiles.all.length = 5 := by
  refine ⟨⟨⟨threeFiles.all.take 3, 48, 3⟩, by decide, ?_⟩, by decide, rfl⟩
  decide

end Hurd.Tmpfs
