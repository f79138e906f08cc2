import Hurd.Framework.Count
import Hurd.Tmpfs.Node

/-!
# The space in use

What the objects of the file system have been charged with, and what the limit checks read.
`adjust_used` and `get_used` are about `num_files`, where the nodes are counted too, and
`tmpfs_space_used` stays as it is.
-/

namespace Hurd.Tmpfs

open Function Option

def Contents.charge (cfg : Config) : Contents → Int
  | .dir entries => (entries.map fun namelen => (State.entsize cfg namelen : Int)).sum
  | .lnk (some strlen) => strlen + 1
  | _ => 0

def Node.charge (cfg : Config) (np : Node) : Int :=
  cfg.sizeofDisknode + np.translen + np.allocsize + np.contents.charge cfg

/-- The sum of the sizes charged for what exists. -/
def State.charged (cfg : Config) (s : State) : Int := ∑ i ∈ s.nodes, (s.node i).charge cfg

/-- The space in use is what has been charged, however a limit check reads it, and the nodes are
counted. -/
structure State.Accounted (cfg : Config) (s : State) : Prop where
  getUsed_eq : s.getUsed = s.charged cfg
  spaceUsed_eq : s.spaceUsed = s.charged cfg
  numFiles_eq : s.numFiles = s.nodes.card

/-- The space in use is within the limit, however a limit check reads it. -/
def State.Within (cfg : Config) (s : State) : Prop :=
  s.getUsed ≤ cfg.pageLimit * cfg.pageSize ∧ s.spaceUsed ≤ cfg.pageLimit * cfg.pageSize

/-- An allocation, growth or directory entry. -/
def Call.takesSpace : Call → Bool
  | .alloc _ _ | .direnter _ _ _ | .grow _ _ _ | .setSize _ _ _ => true
  | _ => false

/-- The space is accounted for in each state of a run, and no successful call takes it above the
limit. -/
def AccountedRun (cfg : Config) : State → List Call → Prop
  | s, [] => s.Accounted cfg
  | s, c :: cs => s.Accounted cfg ∧ ∀ r, s.call cfg c = some r →
      (c.takesSpace = true → r.1 = none → s.Within cfg → r.2.Within cfg) ∧ AccountedRun cfg r.2 cs

/-- The memory for a node is there, and the limit admits the node. -/
def Call.Allocates (cfg : Config) : Call → Prop
  | .alloc dn _ => dn.isSome ∧ State.overLimit cfg cfg.sizeofDisknode = false
  | _ => False

namespace State

variable {cfg : Config} {s t : State} {c : Call} {i : Nat}

theorem accounted_init : init.Accounted cfg := ⟨rfl, rfl, rfl⟩

theorem diskfsAllocNode_full {p : Nat} {type : DType}
    (h : overLimit cfg (s.getUsed + cfg.sizeofDisknode) = true) :
    s.diskfsAllocNode cfg (some p) type = (some .enospc, s) := if_pos h

theorem diskfsAllocNode_ok {p : Nat} {type : DType}
    (h : overLimit cfg (s.getUsed + cfg.sizeofDisknode) = false) :
    s.diskfsAllocNode cfg (some p) type = (none, { s with
      numFiles := ((s.numFiles + 1) % 2 ^ 32 + cfg.sizeofDisknode) % 2 ^ 32
      nodes := insert p s.nodes
      node := update s.node p (.new type) }) := if_neg (by simp [h])

theorem call_init_target (hi : c.target = some i) : init.call cfg c = none := by
  unfold call
  rw [if_neg]
  intro h
  exact absurd (h i hi) (Finset.notMem_empty i)

theorem call_init_alloc (dn : Option Nat) (type : DType) :
    init.call cfg (.alloc dn type) = some (init.diskfsAllocNode cfg dn type) := by
  have hfree : ∀ p ∈ dn, p ∉ init.nodes := fun p _ => Finset.notMem_empty p
  unfold call
  rw [if_pos (by simp [Call.target])]
  exact if_pos hfree

theorem call_init {r : Result} (h : init.call cfg c = some r) :
    c.Allocates cfg ∧ r.2.nodes.card = 1 ∧ r.2.numFiles = (1 + cfg.sizeofDisknode) % 2 ^ 32 ∨
      ¬ c.Allocates cfg ∧ r.1 ≠ none ∧ r.2 = init := by
  cases ht : c.target with
  | some i =>
    rw [call_init_target ht] at h
    cases h
  | none =>
    obtain ⟨dn, type, rfl⟩ : ∃ dn type, c = .alloc dn type := by
      cases c <;> simp_all [Call.target]
    rw [call_init_alloc, Option.some.injEq] at h
    subst h
    have hused : init.getUsed + (cfg.sizeofDisknode : Int) = cfg.sizeofDisknode := zero_add _
    cases dn with
    | none => exact .inr ⟨by simp [Call.Allocates], by simp [diskfsAllocNode], rfl⟩
    | some p =>
      cases hlimit : overLimit cfg cfg.sizeofDisknode with
      | true =>
        rw [diskfsAllocNode_full (by rw [hused, hlimit])]
        exact .inr ⟨by simp [Call.Allocates, hlimit], by simp, rfl⟩
      | false =>
        rw [diskfsAllocNode_ok (by rw [hused, hlimit])]
        refine .inl ⟨by simp [Call.Allocates, hlimit], by simp [init], ?_⟩
        simp [init]

theorem not_accounted_first (hcard : s.nodes.card = 1)
    (hnum : s.numFiles = (1 + cfg.sizeofDisknode) % 2 ^ 32) : ¬ s.Accounted cfg := by
  intro h
  have hpos := cfg.sizeofDisknode_pos
  have hlt := cfg.sizeofDisknode_lt
  have heq := h.numFiles_eq
  rw [hcard] at heq
  omega

end State

/-- The space of a run is accounted for exactly when no node is ever allocated in it. -/
theorem accountedRun_iff {cfg : Config} {calls : List Call} {t : State}
    (hrun : runLabels (State.step cfg) .init calls = some t) :
    AccountedRun cfg .init calls ↔ ∀ c ∈ calls, ¬ c.Allocates cfg := by
  induction calls with
  | nil => exact ⟨fun _ c hc => absurd hc List.not_mem_nil, fun _ => State.accounted_init⟩
  | cons c cs ih =>
    obtain ⟨s, hs, hrest⟩ := bind_eq_some_iff.mp hrun
    obtain ⟨r, hr, rfl⟩ := map_eq_some_iff.mp hs
    rw [List.forall_mem_cons]
    rcases State.call_init hr with ⟨halloc, hcard, hnum⟩ | ⟨halloc, herror, hsame⟩
    · constructor
      · intro h
        have hlater := (h.2 r hr).2
        have hacc : r.2.Accounted cfg := by
          cases cs with
          | nil => exact hlater
          | cons => exact hlater.1
        exact absurd hacc (State.not_accounted_first hcard hnum)
      · intro h
        exact absurd halloc h.1
    · rw [hsame] at hrest
      constructor
      · intro h
        have hlater := (h.2 r hr).2
        rw [hsame] at hlater
        exact ⟨halloc, (ih hrest).mp hlater⟩
      · intro h
        refine ⟨State.accounted_init, fun r' hr' => ?_⟩
        have heq : r' = r := Option.some.inj (hr'.symm.trans hr)
        subst heq
        refine ⟨fun _ hsuccess => absurd hsuccess herror, ?_⟩
        rw [hsame]
        exact (ih hrest).mpr h.2

/-- A tmpfs of one megabyte, with pages of four kilobytes. -/
def megabyte : Config where
  pageLimit := 256
  pageSize := 4096
  sizeofDisknode := 160
  nameOffset := 13
  defaultPager := true
  pageSize_le := by decide
  sizeofDisknode_pos := by decide
  sizeofDisknode_lt := by decide

def fileInRoot : List Call :=
  [.alloc (some 1) .dir, .alloc (some 2) .reg, .direnter 1 5 true, .setSize 2 5000 .success]

theorem accountedRun_iff_file : ∃ t, runLabels (State.step megabyte) .init fileInRoot = some t ∧
    (AccountedRun megabyte .init fileInRoot ↔ ∀ c ∈ fileInRoot, ¬ c.Allocates megabyte) := by
  have hsome : (runLabels (State.step megabyte) .init fileInRoot).isSome = true := by
    decide
  obtain ⟨t, ht⟩ := isSome_iff_exists.mp hsome
  exact ⟨t, ht, accountedRun_iff ht⟩

/-- The root alone is counted as 161 files, and the space in use stays 0. -/
theorem root_not_accounted : ¬ ∀ (cfg : Config) (calls : List Call) (t : State),
    runLabels (State.step cfg) .init calls = some t → AccountedRun cfg .init calls := by
  intro h
  have hcall : State.init.call megabyte (.alloc (some 1) .dir) =
      some (State.init.diskfsAllocNode megabyte (some 1) .dir) := State.call_init_alloc _ _
  have hrun := h megabyte [.alloc (some 1) .dir] _ (by
    simp only [runLabels, State.step, hcall]
    rfl)
  have hnum := ((hrun.2 _ hcall).2).numFiles_eq
  revert hnum
  decide

end Hurd.Tmpfs
