import MiniDbms.Db.Mvcc
import MiniDbms.Lib.Run
import Mathlib.Data.Multiset.AddSub
import Mathlib.Order.Bounds.Basic
import Mathlib.Order.Nat

/-!
# The snapshot registry

Runs of `mv_snap`, `mv_bump` and `mv_gc` in which every id that is released was acquired
before.  What the clients hold is kept beside the registry as a multiset.
-/

namespace MiniDbms

/-- A call; `mv_gc` gets the id that is released. -/
inductive MvCall
  | snap
  | bump
  | gc (snap : Nat)
deriving DecidableEq

/-- The registry, the ids that were returned and not released, and the versions that
`mv_bump` has returned, the last one first. -/
structure Registry where
  mv : Mvcc
  held : Multiset Nat
  bumps : List Nat

namespace Mvcc

/-! ## The oldest snapshot -/

theorem foldl_min_le_start : ∀ (ss : List Nat) (s : Nat), ss.foldl min s ≤ s
  | [], _ => Nat.le_refl _
  | t :: ss, s => (foldl_min_le_start ss (min s t)).trans (Nat.min_le_left s t)

theorem foldl_min_le : ∀ {ss : List Nat} {s x : Nat}, x ∈ ss → ss.foldl min s ≤ x
  | t :: ss, s, x, hx => by
      rw [List.foldl_cons]
      obtain rfl | hx := List.mem_cons.1 hx
      · exact (foldl_min_le_start ss _).trans (Nat.min_le_right s x)
      · exact foldl_min_le hx

theorem foldl_min_mem : ∀ (ss : List Nat) (s : Nat), ss.foldl min s ∈ s :: ss
  | [], s => List.mem_singleton_self s
  | t :: ss, s => by
      rw [List.foldl_cons]
      obtain heq | hmem := List.mem_cons.1 (foldl_min_mem ss (min s t))
      · rw [heq]
        obtain h | h := Nat.le_total s t
        · rw [Nat.min_eq_left h]
          exact List.mem_cons_self
        · rw [Nat.min_eq_right h]
          exact List.mem_cons_of_mem s List.mem_cons_self
      · exact List.mem_cons_of_mem s (List.mem_cons_of_mem t hmem)

theorem snapMin_nil {mv : Mvcc} (h : mv.snaps = []) : mv.snapMin = mv.curVer := by
  unfold snapMin
  rw [h]

theorem snapMin_isLeast {mv : Mvcc} (h : mv.snaps ≠ []) :
    IsLeast {s | s ∈ mv.snaps} mv.snapMin := by
  unfold snapMin
  cases hsnaps : mv.snaps with
  | nil => exact absurd hsnaps h
  | cons s ss =>
      refine ⟨foldl_min_mem ss s, fun x hx => ?_⟩
      obtain rfl | hx := List.mem_cons.1 hx
      · exact foldl_min_le_start ss x
      · exact foldl_min_le hx

end Mvcc

namespace Registry

def start : Registry := ⟨Mvcc.mvNew, 0, []⟩

def step (r : Registry) : MvCall → Except Empty Registry
  | .snap => .ok { r with mv := r.mv.mvSnap, held := r.mv.snapId ::ₘ r.held }
  | .bump => .ok { r with mv := r.mv.mvBump, bumps := r.mv.mvBump.curVer :: r.bumps }
  | .gc snap => .ok { r with mv := r.mv.mvGc snap, held := r.held.erase snap }

/-- Only an id that is held is released. -/
def Releases (r : Registry) : MvCall → Prop
  | .gc snap => snap ∈ r.held
  | _ => True

instance (r : Registry) (call : MvCall) : Decidable (r.Releases call) := by
  cases call <;> unfold Releases <;> infer_instance

/-! ## What every call keeps -/

/-- The registry holds what its clients hold, and versions only grow. -/
structure Exact (r : Registry) : Prop where
  snaps : (r.mv.snaps : Multiset Nat) = r.held
  pos : ∀ s ∈ r.mv.snaps, 1 ≤ s
  old : ∀ s ∈ r.mv.snaps, s ≤ r.mv.curVer
  counted : r.mv.curVer = r.bumps.length + 1
  bumped : ∀ ver ∈ r.bumps, ver ≤ r.mv.curVer
  increasing : r.bumps.Pairwise (· > ·)

variable {r r' : Registry}

theorem start_exact : start.Exact where
  snaps := rfl
  pos := by simp [start, Mvcc.mvNew]
  old := by simp [start, Mvcc.mvNew]
  counted := rfl
  bumped := by simp [start]
  increasing := List.Pairwise.nil

theorem Exact.snap (h : r.Exact) :
    Exact { r with mv := r.mv.mvSnap, held := r.mv.snapId ::ₘ r.held } where
  snaps := by
    rw [← h.snaps]
    exact Multiset.coe_eq_coe.2 (List.perm_append_singleton _ _)
  pos := by
    intro s hs
    obtain hs | hs := List.mem_append.1 hs
    · exact h.pos s hs
    · rw [List.mem_singleton.1 hs, h.counted]
      exact Nat.succ_pos _
  old := by
    intro s hs
    obtain hs | hs := List.mem_append.1 hs
    · exact h.old s hs
    · rw [List.mem_singleton.1 hs]
      exact Nat.le_refl _
  counted := h.counted
  bumped := h.bumped
  increasing := h.increasing

theorem Exact.bump (h : r.Exact) :
    Exact { r with mv := r.mv.mvBump, bumps := r.mv.mvBump.curVer :: r.bumps } where
  snaps := h.snaps
  pos := h.pos
  old := fun s hs => (h.old s hs).trans (Nat.le_succ _)
  counted := by
    rw [List.length_cons, ← h.counted]
    rfl
  bumped := by
    intro ver hver
    obtain rfl | hver := List.mem_cons.1 hver
    · exact Nat.le_refl _
    · exact (h.bumped ver hver).trans (Nat.le_succ _)
  increasing :=
    List.pairwise_cons.2 ⟨fun ver hver => Nat.lt_succ_of_le (h.bumped ver hver), h.increasing⟩

theorem Exact.gc (h : r.Exact) {snap : Nat} (hheld : snap ∈ r.held) :
    Exact { r with mv := r.mv.mvGc snap, held := r.held.erase snap } := by
  have hmem : snap ∈ r.mv.snaps := by
    rw [← h.snaps] at hheld
    exact hheld
  have hgc : r.mv.mvGc snap = { r.mv with snaps := r.mv.snaps.erase snap } := by
    unfold Mvcc.mvGc
    rw [if_neg (Nat.pos_iff_ne_zero.1 (h.pos snap hmem))]
  rw [hgc]
  refine ⟨?_, fun s hs => h.pos s (List.mem_of_mem_erase hs),
    fun s hs => h.old s (List.mem_of_mem_erase hs), h.counted, h.bumped, h.increasing⟩
  rw [← h.snaps]
  exact (Multiset.coe_erase _ _).symm

theorem Exact.step (r : Registry) (call : MvCall) (h : r.Exact) (hcall : r.Releases call) :
    ∃ r', r.step call = .ok r' ∧ r'.Exact := by
  cases call with
  | snap => exact ⟨_, rfl, h.snap⟩
  | bump => exact ⟨_, rfl, h.bump⟩
  | gc snap => exact ⟨_, rfl, h.gc hcall⟩

/-! ## What the clients see -/

/-- The live snapshots are those that are held, the ids and the versions that the next calls
return are the current ones, and `mv_stat` has the number of the ids that are held, the
oldest one, and how far it is behind. -/
structure Serves (r : Registry) : Prop where
  snaps : (r.mv.snaps : Multiset Nat) = r.held
  old : ∀ s ∈ r.mv.snaps, s ≤ r.mv.curVer
  snap : r.mv.snapId = r.mv.curVer
  bump : (∀ ver ∈ r.bumps, ver < r.mv.mvBump.curVer) ∧ ∀ s ∈ r.held, s < r.mv.mvBump.curVer
  increasing : r.bumps.Pairwise (· > ·)
  live : r.mv.mvStat.txLive = r.held.card
  now : r.mv.mvStat.verNow = r.mv.curVer ∧ r.mv.curVer = r.bumps.length + 1
  none_held : r.held = 0 → r.mv.mvStat.snapMin = r.mv.curVer
  oldest : r.held ≠ 0 → IsLeast {s | s ∈ r.held} r.mv.mvStat.snapMin
  wait : r.mv.mvStat.snapMin ≤ r.mv.curVer ∧
    r.mv.mvStat.gcWait = r.mv.curVer - r.mv.mvStat.snapMin

theorem Exact.serves (h : r.Exact) : r.Serves := by
  have hmem : ∀ s, s ∈ r.held ↔ s ∈ r.mv.snaps := fun s => by
    rw [← h.snaps]
    rfl
  have hnil : r.held = 0 ↔ r.mv.snaps = [] := by
    rw [← h.snaps]
    exact Multiset.coe_eq_zero _
  have holdest : r.mv.snaps ≠ [] → IsLeast {s | s ∈ r.mv.snaps} r.mv.snapMin :=
    Mvcc.snapMin_isLeast
  have hle : r.mv.snapMin ≤ r.mv.curVer := by
    by_cases hempty : r.mv.snaps = []
    · exact (Mvcc.snapMin_nil hempty).le
    · exact h.old _ (holdest hempty).1
  refine ⟨h.snaps, h.old, rfl, ⟨fun ver hver => Nat.lt_succ_of_le (h.bumped ver hver),
    fun s hs => Nat.lt_succ_of_le (h.old s ((hmem s).1 hs))⟩, h.increasing, ?_, ⟨rfl, h.counted⟩,
    fun hnone => Mvcc.snapMin_nil (hnil.1 hnone), fun hsome => ?_, hle, ?_⟩
  · rw [← h.snaps]
    exact (Multiset.coe_card _).symm
  · have hset : {s | s ∈ r.held} = {s | s ∈ r.mv.snaps} := Set.ext hmem
    rw [hset]
    exact holdest fun hempty => hsome (hnil.2 hempty)
  · unfold Mvcc.mvStat
    simp only
    split
    · rfl
    · rename_i hempty
      have hsnaps : r.mv.snaps = [] := List.length_eq_zero_iff.1 (Nat.eq_zero_of_not_pos hempty)
      rw [Mvcc.snapMin_nil hsnaps, Nat.sub_self]

/-- In every run of acquires, releases of held ids and bumps, and after each of its calls. -/
theorem serves_always (calls : List MvCall) (h : Run.Guarded step Releases start calls) :
    Run.Always step Serves start calls :=
  (Run.always_of_guarded Exact.step start_exact h).mono fun _ => Exact.serves

theorem serves_shared_snapshot :
    Run.Always step Serves start [.snap, .snap, .bump, .snap, .gc 1, .gc 2, .gc 1] :=
  serves_always _ (by decide)

end Registry

end MiniDbms
