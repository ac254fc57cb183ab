import MiniDbms.Conc.Kept
import MiniDbms.Db.World

/-!
# What snapshots see

`gc_tabs` reads the statistics in one section and prunes in another.  What it was told
to keep is good for every snapshot that is registered in between, unless it was told
that there is none.
-/

namespace MiniDbms

open Versions

namespace Conc

variable {m m' : Conc} {l : Label} {s : Nat} {n : Bytes}

/-- The snapshot finds, in the chain of every table, the newest version it may see. -/
def Retains (m : Conc) (s : Nat) : Prop :=
  ∀ n v, visible TabVer.verId s (m.past n) = some v → v ∈ m.db.vers n

/-- So do all snapshots that are registered. -/
def Served (m : Conc) : Prop := ∀ s ∈ m.db.mv.snaps, m.Retains s

/-- A section that prunes because there was no snapshot finds none that is older than the
head of a table. -/
def PrunesFit (m : Conc) (l : Label) : Prop :=
  m.prunes l = some 0 → ∀ s ∈ m.db.mv.snaps, ∀ n v, (m.db.vers n).head? = some v → v.verId ≤ s

theorem retains_iff (h : Ok m) :
    m.Retains s ↔ ∀ n, Keeps TabVer.verId s (m.db.vers n) (m.past n) := by
  constructor
  · intro hret n
    have hp := h.past n
    unfold Keeps
    cases hv : visible TabVer.verId s (m.past n) with
    | none =>
        cases hc : visible TabVer.verId s (m.db.vers n) with
        | none => rfl
        | some v =>
            rw [hp.visible_past hc] at hv
            cases hv
    | some v =>
        -- the chain is the front of the record, and `v` is the first fit there
        obtain ⟨w, hw, hle⟩ := visible_newest (hp.sorted.sublist hp.first.sublist) (hret n v hv)
          (visible_mem hv).2
        have hw' := hp.visible_past hw
        rw [hv] at hw'
        rw [hw, hw']
  · intro hk n v hv
    rw [← hk n] at hv
    exact (visible_mem hv).1

/-- A snapshot that is not older than the counter finds the heads. -/
theorem retains_cur (h : Ok m) (hs : m.db.mv.curVer ≤ s) : m.Retains s := by
  rw [retains_iff h]
  intro n
  obtain ⟨hchain, hrecord⟩ := (h.past n).visible_cur hs
  exact hchain.trans hrecord.symm

theorem keepId?_tx {t : TxThread} {keep : Nat} (h : Thread.keepId? (.tx t) = some keep) :
    ∃ ok, t.pc = .prune keep ok := by
  unfold Thread.keepId? at h
  dsimp only at h
  split at h
  · rename_i keep' ok hpc
    cases h
    exact ⟨ok, hpc⟩
  · cases h

theorem keepId?_req {sql : Bytes} {stmt : Statement} {pc : ReqPc} {keep : Nat}
    (h : Thread.keepId? (.req sql stmt pc) = some keep) : ∃ ver out, pc = .prune ver keep out := by
  unfold Thread.keepId? at h
  dsimp only at h
  split at h
  · rename_i ver keep' out
    cases h
    exact ⟨ver, out, rfl⟩
  · cases h

theorem prune_ok {i keep : Nat} {db' : Db} (howner : m.owner = none)
    (hrun : m.db.gcPrune keep = .ok db') (t' : Thread) :
    m.prune i keep t' = .ok ({ m with db := db' }.set i t') := by
  unfold prune
  rw [if_neg (not_not.2 howner), hrun]
  rfl

theorem prune_step (h : Ok m) {keep : Nat} (hp : m.prunes l = some keep) :
    ∃ m', m.step l = .ok m' ∧ m'.db.mv.snaps = m.db.mv.snaps ∧
      ∀ n, Cut TabVer.verId keep (m.db.vers n) (m'.db.vers n) := by
  cases l with
  | move i =>
      unfold prunes at hp
      dsimp only at hp
      split at hp
      · rename_i howner
        obtain ⟨t, ht, hkeep⟩ := Option.bind_eq_some_iff.1 hp
        obtain ⟨db', hrun, -, -⟩ := h.inv.wf.gcPrune keep
        have hact : ∃ t', m.act (.move i) = .ok ({ m with db := db' }.set i t') := by
          unfold act
          dsimp only
          rw [ht]
          cases t with
          | tx t =>
              obtain ⟨ok, hpc⟩ := keepId?_tx hkeep
              dsimp only
              unfold moveTx
              rw [hpc]
              exact ⟨_, prune_ok howner hrun _⟩
          | req sql stmt pc =>
              obtain ⟨ver, out, rfl⟩ := keepId?_req hkeep
              exact ⟨_, prune_ok howner hrun _⟩
        obtain ⟨t', hact⟩ := hact
        refine ⟨({ m with db := db' }.set i t').watch, ?_, ?_, h.inv.wf.vers_gcPrune hrun⟩
        · unfold step
          rw [hact]
          rfl
        · change db'.mv.snaps = _
          rw [Db.gcPrune_mv hrun]
      · cases hp
  | begin => cases hp
  | exec sql => cases hp
  | batch sqls => cases hp
  | sql text => cases hp
  | call i act => cases hp
  | tick ns => cases hp

theorem keep_le (h : Ok m) {keep : Nat} (hp : m.prunes l = some keep) (h0 : keep ≠ 0)
    (hs : s ∈ m.db.mv.snaps) : keep ≤ s := by
  cases l with
  | move i =>
      unfold prunes at hp
      dsimp only at hp
      split at hp
      · obtain ⟨t, ht, hkeep⟩ := Option.bind_eq_some_iff.1 hp
        exact (h.inv.keep t (List.mem_of_getElem? ht) keep hkeep).2 h0 s hs
      · cases hp
  | begin => cases hp
  | exec sql => cases hp
  | batch sqls => cases hp
  | sql text => cases hp
  | call i act => cases hp
  | tick ns => cases hp

/-- **One step** keeps the registered snapshots served exactly when it prunes nothing they
need. -/
theorem served_step (h : Ok m) (hserved : Served m) (hs : m.step l = .ok m') :
    Served m' ↔ PrunesFit m l := by
  obtain ⟨h', hstep⟩ := h.step hs
  constructor
  · intro hserved' hzero s hmem n v hv
    obtain ⟨m₁, hs₁, hsnaps, hcut⟩ := prune_step h hzero
    rw [hs] at hs₁
    cases hs₁
    have hk := (retains_iff h).1 (hserved s hmem) n
    refine (keeps_zero_iff hk (h.past n) (h.inv.live s hmem).1 (hcut n)).1 ?_ v hv
    rw [← hstep.past n]
    exact (retains_iff h').1 (hserved' s (hsnaps ▸ hmem)) n
  · intro hfit s hmem
    rw [retains_iff h']
    intro n
    rw [hstep.past n]
    cases hp : m.prunes l with
    | none =>
        have hchange := hstep.change n
        rw [hp] at hchange
        have hk : Keeps TabVer.verId s (m.db.vers n) (m.past n) := by
          rcases hstep.snaps s hmem with hold | rfl
          · exact (retains_iff h).1 (hserved s hold) n
          · exact (retains_iff h).1 (retains_cur h (Nat.le_refl _)) n
        exact hk.change (h.past n) hchange (by simp) (by simp)
    | some keep =>
        obtain ⟨m₁, hs₁, hsnaps, hcut⟩ := prune_step h hp
        rw [hs] at hs₁
        cases hs₁
        rw [hsnaps] at hmem
        have hk := (retains_iff h).1 (hserved s hmem) n
        by_cases hzero : keep = 0
        · subst hzero
          exact (keeps_zero_iff hk (h.past n) (h.inv.live s hmem).1 (hcut n)).2
            fun v hv => hfit hp s hmem n v hv
        · refine hk.change (h.past n) (.prune rfl (hcut n)) (fun keep' heq h0 => ?_) ?_
          · cases heq
            exact keep_le h hp h0 hmem
          · intro heq
            cases heq
            exact hzero rfl

/-- **Garbage collection is safe in a run exactly as long as no section that prunes for
want of snapshots meets one.** -/
theorem served_iff_guarded (files : Bytes → Option Bytes) (maxSql maxQry : Int) (ttlNs : Nat)
    (ls : List Label) : Run.Throughout step Served (init files maxSql maxQry ttlNs) ls ↔
      Run.Guarded step PrunesFit (init files maxSql maxQry ttlNs) ls := by
  refine Run.throughout_iff_guarded (fun h hs => (Ok.step h hs).1) served_step (fun h hnot => ?_)
    (init_ok files maxSql maxQry ttlNs) fun s hs => by cases hs
  by_contra hundef
  refine hnot fun hzero => absurd ?_ hundef
  obtain ⟨m', hs, -, -⟩ := prune_step h hzero
  exact ⟨m', hs⟩

/-- A client gives up its transaction and reads the statistics while no snapshot is there;
then one client begins to read and another one commits; then the first prunes. -/
def prunedAway : List Label :=
  [.begin, .call 0 .abort, .move 0, .move 0, .begin, .begin,
    .call 2 (.txdo (str "INSERT INTO t VALUES (2,b)")), .move 2, .call 2 .commit] ++
    List.replicate 2 (.move 2) ++ [.move 0]

/-- Snapshot 1 is registered and its version of the table is gone. -/
def losesVersion (m : Conc) : Bool :=
  m.db.mv.snaps.contains 1 && (m.db.vers (str "t")).map TabVer.verId == [2] &&
    (m.past (str "t")).map TabVer.verId == [2, 1]

theorem not_served_of_loses (h : losesVersion m = true) : ¬ Served m := by
  intro hserved
  obtain ⟨h, hpast⟩ := Bool.and_eq_true_iff.1 h
  obtain ⟨hsnap, hvers⟩ := Bool.and_eq_true_iff.1 h
  have hpast := eq_of_beq hpast
  have hvers := eq_of_beq hvers
  cases hv : visible TabVer.verId 1 (m.past (str "t")) with
  | none =>
      obtain ⟨v, hmem, hver⟩ := List.mem_map.1 (hpast ▸ (by simp : 1 ∈ [2, 1]))
      have hnone := List.find?_eq_none.1 hv v hmem
      simp [hver] at hnone
  | some v =>
      have hmem := hserved 1 (List.contains_iff_mem.1 hsnap) _ v hv
      have hle := (visible_mem hv).2
      have hver := List.mem_map_of_mem (f := TabVer.verId) hmem
      rw [hvers, List.mem_singleton] at hver
      omega

/-- Such a section does meet one. -/
theorem registered_snapshot_loses_version : ∃ m, Run.exec step
    (init (World.oneFile (str "id(PK),v\n1,a\n")) 0 8 0) prunedAway = .ok m ∧ ¬ Served m := by
  obtain ⟨m, hrun, htest⟩ := Run.exists_of_reaches
    (show Run.reaches step (init (World.oneFile (str "id(PK),v\n1,a\n")) 0 8 0) prunedAway
      losesVersion = true by decide +kernel)
  exact ⟨m, hrun, not_served_of_loses htest⟩

end Conc

end MiniDbms
