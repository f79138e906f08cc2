import Hurd.Auth.MergeIds

/-!
# The ids of a set-id program

`idvec_setid` makes an id the first of the effective ids of a process. The id that it replaces is
saved among the available ids, where the new id becomes the second one.
-/

namespace Hurd.Auth

open List

namespace Idvec

/-- `idvec_remove`, with whether it says that something was done. -/
def remove (v : Idvec) (pos id : Nat) : Idvec × Bool :=
  if pos < v.ids.length then
    let kept := (v.ids.drop pos).filter (· ≠ id)
    if kept.length = (v.ids.drop pos).length then (v, false)
    else ({ v with ids := v.ids.take pos ++ kept }, true)
  else (v, false)

/-- `idvec_insert_only`. Where there is no memory for the id, its old places are already gone. -/
def insertOnly (realloc : Nat → Bool) (v : Idvec) (pos id : Nat) : Idvec × Option Error :=
  if v.ids[pos]? = some id then (v, none)
  else
    let v := (v.remove pos id).1
    match v.insert realloc pos id with
    | .error err => (v, some err)
    | .ok v => (v, none)

theorem remove_ids (v : Idvec) (pos id : Nat) :
    (v.remove pos id).1.ids = v.ids.take pos ++ (v.ids.drop pos).filter (· ≠ id) := by
  rw [remove]
  by_cases hpos : pos < v.ids.length
  · rw [if_pos hpos]
    by_cases hkept : ((v.ids.drop pos).filter (· ≠ id)).length = (v.ids.drop pos).length
    · have hall : (v.ids.drop pos).filter (· ≠ id) = v.ids.drop pos :=
        filter_sublist.eq_of_length hkept
      simp only [if_pos hkept]
      rw [hall, take_append_drop]
    · simp only [if_neg hkept]
  · rw [if_neg hpos]
    have hnil : v.ids.drop pos = [] := drop_eq_nil_of_le (Nat.le_of_not_lt hpos)
    rw [hnil, filter_nil, append_nil, take_of_length_le (Nat.le_of_not_lt hpos)]

section Insertion

variable {realloc : Nat → Bool} {v w : Idvec} {pos id : Nat}

theorem insert_ids (hpos : pos ≤ v.ids.length) (h : v.insert realloc pos id = .ok w) :
    w.ids = v.ids.take pos ++ id :: v.ids.drop pos := by
  have hfront : (if pos < v.ids.length then v.ids.take pos
      else v.ids ++ List.replicate (pos - v.ids.length) 0) = v.ids.take pos := by
    by_cases hlt : pos < v.ids.length
    · rw [if_pos hlt]
    · have heq : pos = v.ids.length := by omega
      rw [if_neg hlt, heq, Nat.sub_self, replicate_zero, append_nil, take_length]
  rw [insert] at h
  dsimp only at h
  split at h
  · cases h
  · rename_i u hensure
    rw [← Except.ok.inj h, ensure_ids hensure, hfront]

theorem insertOnly_ids (hpos : pos ≤ v.ids.length) (hid : v.ids[pos]? ≠ some id)
    (h : v.insertOnly realloc pos id = (w, none)) :
    w.ids = v.ids.take pos ++ id :: (v.ids.drop pos).filter (· ≠ id) := by
  rw [insertOnly, if_neg hid] at h
  dsimp only at h
  have htake : (v.ids.take pos).length = pos := length_take_of_le hpos
  have hle : pos ≤ (v.remove pos id).1.ids.length := by
    rw [remove_ids, length_append, htake]
    exact Nat.le_add_right _ _
  cases hins : (v.remove pos id).1.insert realloc pos id with
  | error err =>
    rw [hins] at h
    cases h
  | ok u =>
    rw [hins] at h
    have hw : u = w := congrArg Prod.fst h
    rw [← hw, insert_ids hle hins, remove_ids, take_left' htake, drop_left' htake]

theorem addNew_ids (h : v.addNew realloc id = .ok w) :
    w.ids = if id ∈ v.ids then v.ids else v.ids ++ [id] := by
  rw [addNew] at h
  by_cases hid : id ∈ v.ids
  · rw [if_pos (contains_iff.mpr hid)] at h
    rw [if_pos hid, ← Except.ok.inj h]
  · rw [if_neg (mt contains_iff.mp hid)] at h
    rw [if_neg hid, add_ids h]

end Insertion

end Idvec

/-- What `idvec_setid` may change; `secure` is none for a null pointer. -/
structure Setid where
  eff : Idvec
  avail : Idvec
  secure : Option Int

/-- The end of `idvec_setid`, from the insertion into the available ids on. -/
def setidAvail (realloc : Nat → Bool) (unknown : Bool) (id : Nat) (s : Setid) :
    Setid × Option Error :=
  let (avail, err) :=
    if 0 < s.avail.ids.length then s.avail.insertOnly realloc 1 id else (s.avail, none)
  match err with
  | some err => ({ s with avail := avail }, some err)
  | none =>
      if unknown && s.secure = some 0 then ({ s with avail := avail, secure := some 1 }, none)
      else ({ s with avail := avail }, none)

/-- `idvec_setid`. The two functions tell for which sizes there is memory for each vector: it asks
for no size twice. -/
def idvecSetid (reallocEff reallocAvail : Nat → Bool) (id : Nat) (s : Setid) :
    Setid × Option Error :=
  let unknown := !s.eff.contains id && !s.avail.contains id
  match s.eff.ids with
  | old :: rest =>
      match s.avail.addNew reallocAvail old with
      | .error err => (s, some err)
      | .ok avail =>
          setidAvail reallocAvail unknown id
            { s with eff := ⟨id :: rest, s.eff.alloced⟩, avail := avail }
  | [] =>
      match s.eff.add reallocEff id with
      | .error err => (s, some err)
      | .ok eff => setidAvail reallocAvail unknown id { s with eff := eff }

section Setid

variable {reallocEff reallocAvail : Nat → Bool} {id : Nat} {s t : Setid} {unknown : Bool}

/-- The available ids when the first effective id has been saved. -/
def Setid.saved (s : Setid) : List Nat :=
  match s.eff.ids with
  | [] => s.avail.ids
  | old :: _ => if old ∈ s.avail.ids then s.avail.ids else s.avail.ids ++ [old]

theorem Setid.mem_saved {x : Nat} :
    x ∈ s.saved ↔ x ∈ s.avail.ids ∨ s.eff.ids.head? = some x := by
  rw [Setid.saved]
  cases s.eff.ids with
  | nil => simp
  | cons old rest =>
    by_cases hold : old ∈ s.avail.ids
    · simp only [if_pos hold, List.head?_cons, Option.some.injEq]
      exact ⟨.inl, fun h => h.elim (fun hx => hx) fun hx => hx ▸ hold⟩
    · simp only [if_neg hold, List.head?_cons, Option.some.injEq, mem_append,
        mem_singleton, eq_comm]

theorem insertOnly_second {v w : Idvec} (hv : 0 < v.ids.length)
    (h : v.insertOnly reallocAvail 1 id = (w, none)) :
    w.ids[0]? = v.ids[0]? ∧ w.ids[1]? = some id ∧
      ∀ x, x ∈ w.ids ↔ x ∈ v.ids ∨ x = id := by
  by_cases hid : v.ids[1]? = some id
  · rw [Idvec.insertOnly, if_pos hid] at h
    have hw : v = w := congrArg Prod.fst h
    subst hw
    refine ⟨rfl, hid, fun x => ⟨.inl, fun hx => ?_⟩⟩
    rcases hx with hx | hx
    · exact hx
    · rw [hx]
      exact mem_of_getElem? hid
  · have hids := Idvec.insertOnly_ids hv hid h
    cases hl : v.ids with
    | nil =>
      rw [hl] at hv
      exact absurd hv (Nat.lt_irrefl 0)
    | cons a rest =>
      rw [hl] at hids
      have hcons : w.ids = a :: id :: rest.filter (· ≠ id) := hids
      rw [hcons]
      refine ⟨rfl, rfl, fun x => ?_⟩
      by_cases hx : x = id
      · simp [hx]
      · simp [hx]

theorem setidAvail_spec (h : setidAvail reallocAvail unknown id s = (t, none)) :
    t.eff = s.eff ∧
      (s.avail.ids ≠ [] →
        t.avail.ids[0]? = s.avail.ids[0]? ∧ t.avail.ids[1]? = some id ∧
          ∀ x, x ∈ t.avail.ids ↔ x ∈ s.avail.ids ∨ x = id) ∧
      (s.avail.ids = [] → t.avail = s.avail) ∧
      t.secure = if unknown = true ∧ s.secure = some 0 then some 1 else s.secure := by
  rw [setidAvail] at h
  generalize hins : (if 0 < s.avail.ids.length then s.avail.insertOnly reallocAvail 1 id
    else (s.avail, none)) = r at h
  obtain ⟨avail, err⟩ := r
  cases err with
  | some err => cases h
  | none =>
    have hvec : t.eff = s.eff ∧ t.avail = avail ∧
        t.secure = if unknown = true ∧ s.secure = some 0 then some 1 else s.secure := by
      by_cases hsec : unknown = true ∧ s.secure = some 0
      · have hcond : (unknown && s.secure = some 0) = true := by simpa using hsec
        rw [if_pos hsec]
        simp only [hcond, if_true] at h
        have ht := congrArg Prod.fst h
        subst ht
        exact ⟨rfl, rfl, rfl⟩
      · have hcond : ¬ (unknown && s.secure = some 0) = true := by simpa using hsec
        rw [if_neg hsec]
        simp only [if_neg hcond] at h
        have ht := congrArg Prod.fst h
        subst ht
        exact ⟨rfl, rfl, rfl⟩
    obtain ⟨heff, havail, hsecure⟩ := hvec
    refine ⟨heff, fun hne => ?_, fun hnil => ?_, hsecure⟩
    · have hpos := length_pos_iff.mpr hne
      rw [if_pos hpos] at hins
      rw [havail]
      exact insertOnly_second hpos hins
    · rw [hnil] at hins
      rw [havail]
      exact (congrArg Prod.fst hins).symm

theorem idvecSetid_saved (h : idvecSetid reallocEff reallocAvail id s = (t, none)) :
    ∃ u, setidAvail reallocAvail (!s.eff.contains id && !s.avail.contains id) id u = (t, none) ∧
      u.eff.ids = id :: s.eff.ids.tail ∧ u.avail.ids = s.saved ∧ u.secure = s.secure := by
  rw [idvecSetid] at h
  rw [Setid.saved]
  cases hl : s.eff.ids with
  | nil =>
    rw [hl] at h
    dsimp only at h
    cases hadd : s.eff.add reallocEff id with
    | error err =>
      rw [hadd] at h
      cases h
    | ok eff =>
      rw [hadd] at h
      have heff : eff.ids = [id] := by rw [Idvec.add_ids hadd, hl, nil_append]
      exact ⟨_, h, heff, rfl, rfl⟩
  | cons old rest =>
    rw [hl] at h
    dsimp only at h
    cases hadd : s.avail.addNew reallocAvail old with
    | error err =>
      rw [hadd] at h
      cases h
    | ok avail =>
      rw [hadd] at h
      exact ⟨_, h, rfl, Idvec.addNew_ids hadd, rfl⟩

theorem unknown_iff (s : Setid) (id : Nat) :
    (!s.eff.contains id && !s.avail.contains id) = true ↔ id ∉ s.eff.ids ∧ id ∉ s.avail.ids := by
  rw [← Idvec.contains_iff, ← Idvec.contains_iff]
  simp

/-- A successful call replaces the first effective id, saves it, and keeps all other ids. -/
theorem idvecSetid_replaces (h : idvecSetid reallocEff reallocAvail id s = (t, none)) :
    t.eff.ids = id :: s.eff.ids.tail ∧
      (∀ x, x ∈ t.eff.ids ∨ x ∈ t.avail.ids ↔ (x ∈ s.eff.ids ∨ x ∈ s.avail.ids) ∨ x = id) ∧
      (s.saved ≠ [] → t.avail.ids[0]? = s.saved[0]? ∧ t.avail.ids[1]? = some id) ∧
      t.secure =
        if (id ∉ s.eff.ids ∧ id ∉ s.avail.ids) ∧ s.secure = some 0 then some 1 else s.secure := by
  obtain ⟨u, hend, heff, havail, hsecure⟩ := idvecSetid_saved h
  obtain ⟨hteff, hfull, hempty, htsecure⟩ := setidAvail_spec hend
  have hmem : ∀ x, x ∈ t.avail.ids ∨ x = id ↔ x ∈ s.saved ∨ x = id := by
    intro x
    rw [← havail]
    by_cases hnil : u.avail.ids = []
    · rw [hempty hnil]
    · rw [(hfull hnil).2.2 x, or_assoc, or_self]
  have hunion : ∀ x, x ∈ s.eff.ids ↔ s.eff.ids.head? = some x ∨ x ∈ s.eff.ids.tail := by
    intro x
    cases s.eff.ids with
    | nil => simp
    | cons old rest => simp [eq_comm]
  refine ⟨hteff ▸ heff, fun x => ?_, fun hne => ?_, ?_⟩
  · have hx := hmem x
    rw [Setid.mem_saved] at hx
    rw [hteff, heff, mem_cons, hunion x]
    constructor
    · rintro ((hid | htail) | hav)
      · exact .inr hid
      · exact .inl (.inl (.inr htail))
      · rcases hx.mp (.inl hav) with (ha | hh) | hid
        · exact .inl (.inr ha)
        · exact .inl (.inl (.inl hh))
        · exact .inr hid
    · rintro (((hh | htail) | ha) | hid)
      · exact (hx.mpr (.inl (.inr hh))).elim .inr fun hid => .inl (.inl hid)
      · exact .inl (.inr htail)
      · exact (hx.mpr (.inl (.inl ha))).elim .inr fun hid => .inl (.inl hid)
      · exact .inl (.inl hid)
  · rw [← havail] at hne ⊢
    obtain ⟨hfirst, hsecond, -⟩ := hfull hne
    exact ⟨hfirst, hsecond⟩
  · rw [htsecure, hsecure]
    simp only [unknown_iff]

theorem idvecSetid_replaces_available :
    ∃ t, idvecSetid (fun _ => true) (fun _ => true) 0 ⟨⟨[10, 20], 2⟩, ⟨[30, 0], 2⟩, some 0⟩ =
        (t, none) ∧
      t.eff.ids = [0, 20] ∧ t.avail.ids[0]? = some 30 ∧ t.avail.ids[1]? = some 0 ∧
      t.secure = some 0 := by
  obtain ⟨t, hcall⟩ : ∃ t, idvecSetid (fun _ => true) (fun _ => true) 0
      ⟨⟨[10, 20], 2⟩, ⟨[30, 0], 2⟩, some 0⟩ = (t, none) := ⟨_, rfl⟩
  obtain ⟨heff, -, havail, hsecure⟩ := idvecSetid_replaces hcall
  obtain ⟨hfirst, hsecond⟩ := havail (by decide)
  exact ⟨t, hcall, heff, hfirst, hsecond, hsecure⟩

end Setid

end Hurd.Auth
