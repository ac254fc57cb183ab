import MiniDbms.Db.Session

/-!
# Runs of calls

A client opens transactions and snapshots and uses them in any order.  Handles
are positions; a handle that is closed or was never given out does nothing.
-/

namespace MiniDbms

inductive Call
  | begin
  | txdo (h : Nat) (sql : Bytes)
  | commit (h : Nat)
  | abort (h : Nat)
  | exec (sql : Bytes)
  | batch (sqls : List Bytes) (tx : Bool)
  | snap
  | read (h : Nat) (sql : Bytes)
  | done (h : Nat)

/-- What the client gets back. -/
inductive Out
  | opened (h : Nat)
  | res (res : DbRes) (ok : Bool)
  | ended (ok : Bool)
  | results (out : List DbRes) (ok : Bool)
  | closed
deriving DecidableEq

/-- The store with the transactions and snapshots the client holds. -/
structure World where
  db : Db
  txs : List (Option DbTx)
  snaps : List (Option Nat)

namespace World

def init (files : Bytes → Option Bytes) (maxSql maxQry : Int) : World :=
  ⟨dbOpen files maxSql maxQry, [], []⟩

/-- The transaction behind a handle. -/
def tx? (w : World) (h : Nat) : Option DbTx := (w.txs[h]?).join

def snap? (w : World) (h : Nat) : Option Nat := (w.snaps[h]?).join

def step (w : World) : Call → Except Fault (World × Out)
  | .begin =>
    let (db, tx) := w.db.dbBegin
    .ok ({ w with db := db, txs := w.txs ++ [some tx] }, .opened w.txs.length)
  | .txdo h sql =>
    match w.tx? h with
    | none => .ok (w, .closed)
    | some tx => do
      let (db, tx, res, ok) ← w.db.dbTxdo tx sql
      return ({ w with db := db, txs := w.txs.set h (some tx) }, .res res ok)
  | .commit h =>
    match w.tx? h with
    | none => .ok (w, .closed)
    | some tx => do
      let (db, tx, ok) ← w.db.dbCommit tx Db.saveOk
      return ({ w with db := db, txs := w.txs.set h (if ok then none else some tx) }, .ended ok)
  | .abort h =>
    match w.tx? h with
    | none => .ok (w, .closed)
    | some tx => do
      let db ← w.db.dbAbort tx
      return ({ w with db := db, txs := w.txs.set h none }, .ended true)
  | .exec sql => do
    let (db, res, ok) ← w.db.dbExec sql
    return ({ w with db := db }, .res res ok)
  | .batch sqls tx => do
    let (db, out, ok) ← w.db.dbBatch sqls tx
    return ({ w with db := db }, .results out ok)
  | .snap =>
    let (db, s) := w.db.dbSnap
    .ok ({ w with db := db, snaps := w.snaps ++ [some s] }, .opened w.snaps.length)
  | .read h sql =>
    match w.snap? h with
    | none => .ok (w, .closed)
    | some s => do
      let (db, res, ok) ← w.db.doRead s sql
      return ({ w with db := db }, .res res ok)
  | .done h =>
    match w.snap? h with
    | none => .ok (w, .closed)
    | some s => do
      let db ← w.db.dbDone s
      return ({ w with db := db, snaps := w.snaps.set h none }, .ended true)

def run : World → List Call → Except Fault (World × List Out)
  | w, [] => .ok (w, [])
  | w, c :: cs => do
    let (w, o) ← w.step c
    let (w, os) ← run w cs
    return (w, o :: os)

/-- The call follows no dangling registry pointer, and overruns neither the rows
of a working copy nor the UK columns of a header. -/
def Calm (w : World) : Call → Prop
  | .txdo h sql => ∀ tx, w.tx? h = some tx → w.db.TxdoSafe tx sql
  | .commit h => ∀ tx, w.tx? h = some tx → w.db.FreshDirty tx
  | .exec sql => w.db.SqlLoads sql
  | .batch sqls tx => w.db.BatchCallSafe sqls tx
  | .read h sql => ∀ s, w.snap? h = some s → w.db.ReadLoads sql
  | _ => True

/-- Every call of a run is calm where it starts. -/
def CalmRun : World → List Call → Prop
  | _, [] => True
  | w, c :: cs => w.Calm c ∧ ∀ r, w.step c = .ok r → CalmRun r.1 cs

instance (w : World) : (c : Call) → Decidable (w.Calm c)
  | .txdo h sql => inferInstanceAs (Decidable (∀ tx, w.tx? h = some tx → w.db.TxdoSafe tx sql))
  | .commit h => inferInstanceAs (Decidable (∀ tx, w.tx? h = some tx → w.db.FreshDirty tx))
  | .exec sql => inferInstanceAs (Decidable (w.db.SqlLoads sql))
  | .batch sqls tx => inferInstanceAs (Decidable (w.db.BatchCallSafe sqls tx))
  | .read h sql => inferInstanceAs (Decidable (∀ s, w.snap? h = some s → w.db.ReadLoads sql))
  | .begin => isTrue trivial
  | .abort _ => isTrue trivial
  | .snap => isTrue trivial
  | .done _ => isTrue trivial

instance decidableCalmRun : (w : World) → (cs : List Call) → Decidable (w.CalmRun cs)
  | _, [] => isTrue trivial
  | w, c :: cs =>
    have : ∀ r : World × Out, Decidable (CalmRun r.1 cs) := fun r => decidableCalmRun r.1 cs
    inferInstanceAs (Decidable (w.Calm c ∧ ∀ r, w.step c = .ok r → CalmRun r.1 cs))

end World

/-! ## The abstract world -/

structure IdealWorld where
  d : Ideal
  txs : List (Option IdealTx)
  snaps : List (Option (Nat × Tables))

namespace IdealWorld

/-- Every table holds what its file holds. -/
def init (files : Bytes → Option Bytes) (maxSql maxQry : Int) : IdealWorld :=
  ⟨⟨1, fun n => loadable n (files n), maxSql, maxQry⟩, [], []⟩

def tx? (w : IdealWorld) (h : Nat) : Option IdealTx := (w.txs[h]?).join

def snap? (w : IdealWorld) (h : Nat) : Option (Nat × Tables) := (w.snaps[h]?).join

noncomputable def step (w : IdealWorld) : Call → Except Fault (IdealWorld × Out)
  | .begin => .ok ({ w with txs := w.txs ++ [some w.d.begin] }, .opened w.txs.length)
  | .txdo h sql =>
    match w.tx? h with
    | none => .ok (w, .closed)
    | some tx => do
      let (tx, res, ok) ← tx.txdo w.d.maxSql sql
      return ({ w with txs := w.txs.set h (some tx) }, .res res ok)
  | .commit h =>
    match w.tx? h with
    | none => .ok (w, .closed)
    | some tx =>
      let (d, ok) := w.d.commit tx
      .ok ({ w with d := d, txs := w.txs.set h (if ok then none else some tx) }, .ended ok)
  | .abort h =>
    match w.tx? h with
    | none => .ok (w, .closed)
    | some _ => .ok ({ w with txs := w.txs.set h none }, .ended true)
  | .exec sql => do
    let (d, res, ok) ← w.d.exec sql
    return ({ w with d := d }, .res res ok)
  | .batch sqls tx => do
    let (d, out, ok) ← w.d.batch sqls tx
    return ({ w with d := d }, .results out ok)
  | .snap => .ok ({ w with snaps := w.snaps ++ [some (w.d.ver, w.d.com)] }, .opened w.snaps.length)
  | .read h sql =>
    match w.snap? h with
    | none => .ok (w, .closed)
    | some (s, seen) => do
      let (res, ok) ← w.d.read s seen sql
      return (w, .res res ok)
  | .done h =>
    match w.snap? h with
    | none => .ok (w, .closed)
    | some _ => .ok ({ w with snaps := w.snaps.set h none }, .ended true)

noncomputable def run : IdealWorld → List Call → Except Fault (IdealWorld × List Out)
  | w, [] => .ok (w, [])
  | w, c :: cs => do
    let (w, o) ← w.step c
    let (w, os) ← run w cs
    return (w, o :: os)

end IdealWorld

/-! ## The invariant -/

namespace World

/-- The working copies of some transactions. -/
def worksOf (txs : List (Option DbTx)) : List Nat :=
  txs.flatMap fun o => (o.map DbTx.works).getD []

/-- The snapshot ids a client holds. -/
def ids (w : World) : List Nat :=
  w.txs.filterMap (Option.map DbTx.snapId) ++ w.snaps.filterMap id

structure Inv (w : World) : Prop where
  wf : w.db.Wf (worksOf w.txs)
  txs : ∀ tx, some tx ∈ w.txs → w.db.TxOk tx ∧ w.db.BaseOk tx
  reg : w.db.mv.snaps.Perm w.ids
  live : w.db.Live
  sees : ∀ s ∈ w.db.mv.snaps, w.db.Sees s

/-- The abstract world a world stands for. -/
def abs (w : World) : IdealWorld :=
  ⟨w.db.abs, w.txs.map (Option.map w.db.absTx), w.snaps.map (Option.map fun s => (s, w.db.seen s))⟩

variable {w : World} {db' : Db} {A B : List (Option DbTx)}

theorem worksOf_append (A B : List (Option DbTx)) : worksOf (A ++ B) = worksOf A ++ worksOf B :=
  List.flatMap_append

theorem worksOf_split (A B : List (Option DbTx)) (o : Option DbTx) :
    (worksOf (A ++ o :: B)).Perm ((o.map DbTx.works).getD [] ++ worksOf (A ++ B)) := by
  rw [worksOf_append, worksOf_append]
  change (worksOf A ++ ((o.map DbTx.works).getD [] ++ worksOf B)).Perm _
  rw [← List.append_assoc, ← List.append_assoc]
  exact List.perm_append_comm.append_right _

theorem mem_worksOf {tx : DbTx} {a : Nat} (htx : some tx ∈ A) (ha : a ∈ tx.works) :
    a ∈ worksOf A := List.mem_flatMap.2 ⟨some tx, htx, ha⟩

theorem tx?_some {h : Nat} {tx : DbTx} (ht : w.tx? h = some tx) : w.txs[h]? = some (some tx) := by
  unfold tx? at ht
  exact Option.join_eq_some_iff.1 ht

theorem snap?_some {h s : Nat} (hs : w.snap? h = some s) : w.snaps[h]? = some (some s) := by
  unfold snap? at hs
  exact Option.join_eq_some_iff.1 hs

theorem Inv.id_mem (hinv : Inv w) {tx : DbTx} (htx : some tx ∈ w.txs) :
    tx.snapId ∈ w.db.mv.snaps :=
  hinv.reg.mem_iff.2 (List.mem_append_left _ (List.mem_filterMap.2 ⟨some tx, htx, rfl⟩))

theorem Inv.snap_mem (hinv : Inv w) {s : Nat} (hs : some s ∈ w.snaps) : s ∈ w.db.mv.snaps :=
  hinv.reg.mem_iff.2 (List.mem_append_right _ (List.mem_filterMap.2 ⟨some s, hs, rfl⟩))

theorem Inv.openTx (hinv : Inv w) {tx : DbTx} (htxs : w.txs = A ++ some tx :: B) :
    w.db.OpenTx tx (worksOf (A ++ B)) := by
  have hmem : some tx ∈ w.txs := htxs ▸ List.mem_append_right _ List.mem_cons_self
  obtain ⟨hok, hbase⟩ := hinv.txs tx hmem
  have hid := hinv.id_mem hmem
  refine ⟨⟨?_, hok⟩, hbase, (hinv.live _ hid).1, hinv.sees _ hid⟩
  have hp := worksOf_split A B (some tx)
  rw [← htxs] at hp
  exact hinv.wf.perm hp

theorem Inv.others (hinv : Inv w) {S : Nat → Prop} (hst : Db.Stable S w.db db')
    (hsub : ∀ tx, some tx ∈ A → some tx ∈ w.txs ∧ S tx.snapId)
    (hworks : ∀ a ∈ worksOf A, db'.heap.get a = w.db.heap.get a) :
    (∀ tx, some tx ∈ A → db'.TxOk tx ∧ db'.BaseOk tx) ∧
      A.map (Option.map db'.absTx) = A.map (Option.map w.db.absTx) := by
  have key : ∀ tx, some tx ∈ A → (db'.TxOk tx ∧ db'.BaseOk tx) ∧ db'.absTx tx = w.db.absTx tx := by
    intro tx htx
    obtain ⟨hmem, hS⟩ := hsub tx htx
    obtain ⟨hok, hbase⟩ := hinv.txs tx hmem
    obtain ⟨hok', hwork⟩ := hok.stable hst fun a ha => hworks a (mem_worksOf htx ha)
    refine ⟨⟨hok', hbase.stable hst hS⟩, ?_⟩
    unfold Db.absTx
    rw [hwork, hst.seen _ hS]
  refine ⟨fun tx htx => (key tx htx).1, List.map_congr_left ?_⟩
  intro o ho
  cases o with
  | none => rfl
  | some tx => exact congrArg some (key tx ho).2

theorem snaps_abs {S : Nat → Prop} {snaps : List (Option Nat)} {db : Db}
    (hst : Db.Stable S db db') (hsub : ∀ s, some s ∈ snaps → S s) :
    snaps.map (Option.map fun s => (s, db'.seen s)) =
      snaps.map (Option.map fun s => (s, db.seen s)) := by
  refine List.map_congr_left ?_
  intro o ho
  cases o with
  | none => rfl
  | some s => simp only [Option.map_some, hst.seen s (hsub s ho)]

theorem ids_close (db : Db) (A B : List (Option DbTx)) (tx : DbTx) (snaps : List (Option Nat)) :
    (ids ⟨db, A ++ some tx :: B, snaps⟩).Perm (tx.snapId :: ids ⟨db', A ++ none :: B, snaps⟩) := by
  unfold ids
  simp only [List.filterMap_append, List.filterMap_cons, Option.map_some, Option.map_none,
    List.append_assoc]
  exact List.perm_middle

theorem ids_done (db : Db) (txs : List (Option DbTx)) (C D : List (Option Nat)) (s : Nat) :
    (ids ⟨db, txs, C ++ some s :: D⟩).Perm (s :: ids ⟨db', txs, C ++ none :: D⟩) := by
  unfold ids
  simp only [List.filterMap_append, List.filterMap_cons, id]
  rw [← List.append_assoc, ← List.append_assoc]
  exact List.perm_middle

theorem mvGc_perm {mv : Mvcc} {s : Nat} {l : List Nat} (h : mv.snaps.Perm (s :: l)) (hs : 1 ≤ s) :
    (mv.mvGc s).snaps.Perm l := by
  unfold Mvcc.mvGc
  rw [if_neg (by omega)]
  have he := h.erase s
  rwa [List.erase_cons_head] at he

theorem abs_tx? (w : World) (h : Nat) : w.abs.tx? h = (w.tx? h).map w.db.absTx := by
  unfold IdealWorld.tx? tx? abs
  rw [List.getElem?_map]
  cases w.txs[h]? with
  | none => rfl
  | some o => rfl

theorem abs_snap? (w : World) (h : Nat) :
    w.abs.snap? h = (w.snap? h).map fun s => (s, w.db.seen s) := by
  unfold IdealWorld.snap? snap? abs
  rw [List.getElem?_map]
  cases w.snaps[h]? with
  | none => rfl
  | some o => rfl

/-- What a step does to a world in order, and to the abstract world behind it. -/
inductive StepCase (w : World) (c : Call) : Except Fault (World × Out) → Prop
  | fault {f : Fault} (h : ¬ w.Calm c) : StepCase w c (.error f)
  | ok {w' : World} {o : Out} (hi : w.abs.step c = .ok (w'.abs, o)) (hinv : Inv w') :
      StepCase w c (.ok (w', o))

theorem abs_set {h : Nat} {o : Option DbTx} (htxs : w.txs = A ++ o :: B) (hlen : A.length = h)
    (y : Option IdealTx) : w.abs.txs.set h y =
      A.map (Option.map w.db.absTx) ++ y :: B.map (Option.map w.db.absTx) := by
  unfold abs
  dsimp only
  rw [htxs, List.map_append, List.map_cons, List.set_append]
  simp [hlen]

theorem abs_replaced {o' : Option DbTx} {S : Nat → Prop} (hst : Db.Stable S w.db db')
    (hsnaps : ∀ s, some s ∈ w.snaps → S s)
    (habs : (A ++ B).map (Option.map db'.absTx) = (A ++ B).map (Option.map w.db.absTx)) :
    (⟨db', A ++ o' :: B, w.snaps⟩ : World).abs = ⟨db'.abs,
      A.map (Option.map w.db.absTx) ++ o'.map db'.absTx :: B.map (Option.map w.db.absTx),
      w.abs.snaps⟩ := by
  rw [List.map_append, List.map_append] at habs
  obtain ⟨hA, hB⟩ := List.append_inj habs (by simp)
  unfold abs
  dsimp only
  rw [List.map_append, List.map_cons, hA, hB, snaps_abs hst hsnaps]

theorem Inv.step_begin (hinv : Inv w) : StepCase w .begin (w.step .begin) := by
  obtain ⟨hopen, habs⟩ := hinv.wf.begin_open
  have hst : Db.Stable (fun _ => True) w.db { w.db with mv := w.db.mv.mvSnap } :=
    (Db.mv_invisible _).1
  obtain ⟨htxs, htabs⟩ := hinv.others (A := w.txs ++ []) hst
    (fun tx htx => ⟨by simpa using htx, trivial⟩) fun _ _ => rfl
  simp only [step, Db.dbBegin, Mvcc.snapId]
  refine .ok ?_ ⟨?_, ?_, ?_, hinv.live.begin hinv.wf, ?_⟩
  · rw [abs_replaced hst (fun _ _ => trivial) htabs]
    simp only [IdealWorld.step, Option.map_some, habs]
    simp [abs]
    rfl
  · change Db.Wf _ (worksOf (w.txs ++ [some ⟨w.db.mv.curVer, []⟩]))
    rw [worksOf_append]
    simpa [worksOf, DbTx.works] using hopen.txwf.wf
  · intro tx htx
    rcases List.mem_append.1 htx with htx | htx
    · exact htxs tx (by simpa using htx)
    · cases List.mem_singleton.1 htx
      exact ⟨hopen.txwf.ok, hopen.base⟩
  · change (w.db.mv.snaps ++ [w.db.mv.curVer]).Perm
      ((w.txs ++ [some (⟨w.db.mv.curVer, []⟩ : DbTx)]).filterMap _ ++ _)
    rw [List.filterMap_append, List.append_assoc]
    have hp : (w.db.mv.snaps ++ [w.db.mv.curVer]).Perm (w.db.mv.curVer :: w.ids) :=
      (List.perm_append_singleton _ _).trans (hinv.reg.cons _)
    exact hp.trans List.perm_middle.symm
  · intro s hs
    rcases List.mem_append.1 hs with hs | hs
    · exact hst.sees s trivial (hinv.sees s hs)
    · rw [List.mem_singleton.1 hs]
      exact hopen.sees

theorem rest_mem {o : Option DbTx} (htxs : w.txs = A ++ o :: B) {tx : DbTx}
    (htx : some tx ∈ A ++ B) : some tx ∈ w.txs := by
  rw [htxs]
  rcases List.mem_append.1 htx with htx | htx
  · exact List.mem_append_left _ htx
  · exact List.mem_append_right _ (List.mem_cons_of_mem _ htx)

theorem Inv.step_txdo (hinv : Inv w) (h : Nat) (sql : Bytes) :
    StepCase w (.txdo h sql) (w.step (.txdo h sql)) := by
  simp only [step]
  cases ht : w.tx? h with
  | none =>
      refine .ok ?_ hinv
      simp only [IdealWorld.step, abs_tx?, ht, Option.map_none]
  | some tx =>
      obtain ⟨A, B, htxs, hlen, hset⟩ := split_at (tx?_some ht)
      have hopen := hinv.openTx htxs
      dsimp only
      cases hrun : w.db.dbTxdo tx sql with
      | error f => exact .fault fun hcalm => Db.dbTxdo_error hopen hrun (hcalm tx ht)
      | ok r =>
          obtain ⟨db', tx', res, ok⟩ := r
          obtain ⟨abs', hi, hran⟩ := Db.dbTxdo_ok hopen hrun
          have hmv := hran.priv.mv
          have hpos : ∀ s ∈ w.db.mv.snaps, 1 ≤ s := fun s hs => (hinv.live s hs).1
          obtain ⟨hothers, habs⟩ := hinv.others hran.priv.stable
            (fun x hx => ⟨rest_mem htxs hx, hpos _ (hinv.id_mem (rest_mem htxs hx))⟩)
            hran.priv.works
          have hd : db'.abs = w.db.abs := by
            unfold Db.abs
            rw [hran.priv.com, hran.priv.maxSql, hran.priv.maxQry, hmv]
          simp only [bind, Except.bind, hset]
          refine .ok ?_ ⟨?_, ?_, ?_, ?_, ?_⟩
          · rw [abs_replaced hran.priv.stable (fun s hs => hpos s (hinv.snap_mem hs)) habs,
              Option.map_some, hran.abs, hd]
            have hi' : IdealTx.txdo w.abs.d.maxSql (w.db.absTx tx) sql = .ok (abs', res, ok) := hi
            simp only [IdealWorld.step, abs_tx?, ht, Option.map_some, bind, Except.bind, hi',
              abs_set htxs hlen]
            rfl
          · exact hran.opened.txwf.wf.perm (worksOf_split A B (some tx')).symm
          · intro x hx
            rcases List.mem_append.1 hx with hx | hx
            · exact hothers x (List.mem_append_left _ hx)
            · rcases List.mem_cons.1 hx with hx | hx
              · cases hx
                exact ⟨hran.opened.txwf.ok, hran.opened.base⟩
              · exact hothers x (List.mem_append_right _ hx)
          · have hreg := hinv.reg
            unfold ids at hreg ⊢
            rw [htxs] at hreg
            simp only [hmv, List.filterMap_append, List.filterMap_cons, Option.map_some,
              hran.snapId] at hreg ⊢
            exact hreg
          · intro s hs
            rw [hmv] at hs ⊢
            exact hinv.live s hs
          · intro s hs
            rw [hmv] at hs
            exact hran.priv.stable.sees s (hpos s hs) (hinv.sees s hs)

/-- A transaction is over; the store did what `hst` and `hworks` say. -/
theorem Inv.close (hinv : Inv w) {h : Nat} {tx : DbTx} (htxs : w.txs = A ++ some tx :: B)
    (hlen : A.length = h) (hwf : db'.Wf (worksOf (A ++ B)))
    (hsnaps : db'.mv.snaps = (w.db.mv.mvGc tx.snapId).snaps)
    (hcur : w.db.mv.curVer ≤ db'.mv.curVer)
    (hst : Db.Stable (· ∈ db'.mv.snaps) w.db db')
    (hworks : ∀ a ∈ worksOf (A ++ B), db'.heap.get a = w.db.heap.get a) :
    Inv ⟨db', A ++ none :: B, w.snaps⟩ ∧
      (⟨db', A ++ none :: B, w.snaps⟩ : World).abs =
        { w.abs with d := db'.abs, txs := w.abs.txs.set h none } := by
  have hmem : some tx ∈ w.txs := htxs ▸ List.mem_append_right _ List.mem_cons_self
  have hpos := (hinv.live _ (hinv.id_mem hmem)).1
  have hreg : db'.mv.snaps.Perm (ids ⟨db', A ++ none :: B, w.snaps⟩) := by
    rw [hsnaps]
    refine mvGc_perm (hinv.reg.trans ?_) hpos
    have hw : w.ids = ids ⟨w.db, A ++ some tx :: B, w.snaps⟩ := by
      unfold ids
      rw [htxs]
    rw [hw]
    exact ids_close _ _ _ _ _
  have hold : ∀ s ∈ db'.mv.snaps, s ∈ w.db.mv.snaps := by
    intro s hs
    rw [hsnaps] at hs
    exact Db.mem_mvGc hs
  have hsub : ∀ x, some x ∈ A ++ B → some x ∈ w.txs ∧ x.snapId ∈ db'.mv.snaps := by
    intro x hx
    refine ⟨rest_mem htxs hx, hreg.mem_iff.2 (List.mem_append_left _ ?_)⟩
    refine List.mem_filterMap.2 ⟨some x, ?_, rfl⟩
    rcases List.mem_append.1 hx with hx | hx
    · exact List.mem_append_left _ hx
    · exact List.mem_append_right _ (List.mem_cons_of_mem _ hx)
  obtain ⟨hothers, habs⟩ := hinv.others hst hsub hworks
  refine ⟨⟨?_, ?_, hreg, ?_, fun s hs => hst.sees s hs (hinv.sees s (hold s hs))⟩, ?_⟩
  · exact hwf.perm (worksOf_split A B none).symm
  · intro x hx
    refine hothers x ?_
    rcases List.mem_append.1 hx with hx | hx
    · exact List.mem_append_left _ hx
    · exact List.mem_append_right _ ((List.mem_cons.1 hx).resolve_left (by simp))
  · intro s hs
    have := hinv.live s (hold s hs)
    exact ⟨this.1, this.2.trans hcur⟩
  · rw [abs_replaced hst ?_ habs, abs_set htxs hlen]
    · rfl
    · intro s hs
      refine hreg.mem_iff.2 (List.mem_append_right _ ?_)
      exact List.mem_filterMap.2 ⟨some s, hs, rfl⟩

theorem Inv.step_commit (hinv : Inv w) (h : Nat) :
    StepCase w (.commit h) (w.step (.commit h)) := by
  simp only [step]
  cases ht : w.tx? h with
  | none =>
      refine .ok ?_ hinv
      simp only [IdealWorld.step, abs_tx?, ht, Option.map_none]
  | some tx =>
      obtain ⟨A, B, htxs, hlen, hset⟩ := split_at (tx?_some ht)
      have hopen := hinv.openTx htxs
      dsimp only
      have hc := Db.dbCommit_spec hopen hinv.live
      generalize w.db.dbCommit tx Db.saveOk = r at hc
      cases hc with
      | stale hf => exact .fault fun hcalm => hf (hcalm tx ht)
      | conflict hcon =>
          have hself : w.txs.set h (some tx) = w.txs := by rw [hset, htxs]
          have hself' : w.abs.txs.set h (some (w.db.absTx tx)) = w.abs.txs := by
            rw [abs_set htxs hlen]
            unfold abs
            dsimp only
            rw [htxs, List.map_append, List.map_cons]
            rfl
          simp only [bind, Except.bind, Bool.false_eq_true, if_false, hself]
          refine .ok ?_ hinv
          have hcon' : w.abs.d.commit (w.db.absTx tx) = (w.abs.d, false) := if_pos hcon
          simp only [IdealWorld.step, abs_tx?, ht, Option.map_some, hcon', Bool.false_eq_true,
            if_false, hself']
      | @done db' tx' hno hdone =>
          have hsnaps : db'.mv.snaps = (w.db.mv.mvGc tx.snapId).snaps := by
            rw [hdone.mv]
            unfold Mvcc.mvGc
            split <;> rfl
          have hcur : w.db.mv.curVer ≤ db'.mv.curVer := by
            rw [hdone.mv, Db.mvGc_curVer]
            exact Nat.le_succ _
          obtain ⟨hinv', habs⟩ :=
            hinv.close htxs hlen hdone.wf hsnaps hcur hdone.stable hdone.works
          simp only [bind, Except.bind, if_true, hset]
          refine .ok ?_ hinv'
          rw [habs, hdone.abs]
          have hno' : w.abs.d.commit (w.db.absTx tx) = (w.abs.d.install (w.db.absTx tx), true) :=
            if_neg hno
          simp only [IdealWorld.step, abs_tx?, ht, Option.map_some, hno', if_true]
          rfl

theorem Inv.step_abort (hinv : Inv w) (h : Nat) :
    StepCase w (.abort h) (w.step (.abort h)) := by
  simp only [step]
  cases ht : w.tx? h with
  | none =>
      refine .ok ?_ hinv
      simp only [IdealWorld.step, abs_tx?, ht, Option.map_none]
  | some tx =>
      obtain ⟨A, B, htxs, hlen, hset⟩ := split_at (tx?_some ht)
      have hopen := hinv.openTx htxs
      obtain ⟨db', hrun, hr⟩ := Db.dbAbort_spec hopen.txwf fun s hs => (hinv.live s hs).1
      obtain ⟨hinv', habs⟩ := hinv.close htxs hlen hr.wf (by rw [hr.mv])
        (by rw [hr.mv, Db.mvGc_curVer]) hr.stable hr.works
      have hd : db'.abs = w.db.abs := by
        unfold Db.abs
        rw [hr.com, hr.maxSql, hr.maxQry, hr.mv, Db.mvGc_curVer]
      simp only [bind, Except.bind, hrun, hset]
      refine .ok ?_ hinv'
      rw [habs, hd]
      simp only [IdealWorld.step, abs_tx?, ht, Option.map_some]
      rfl

/-- The client's transactions and snapshots do not notice a settled call. -/
theorem Inv.settled (hinv : Inv w) {d : Ideal} (hs : Db.Settled w.db db' (worksOf w.txs) d) :
    Inv { w with db := db' } ∧ ({ w with db := db' } : World).abs = { w.abs with d := d } := by
  obtain ⟨hothers, habs⟩ := hinv.others (A := w.txs) hs.stable
    (fun x hx => ⟨hx, hinv.id_mem hx⟩) hs.works
  refine ⟨⟨hs.wf, hothers, hs.snaps.trans hinv.reg, hs.live hinv.live, ?_⟩, ?_⟩
  · intro s hmem
    have hold := hs.snaps.mem_iff.1 hmem
    exact hs.stable.sees s hold (hinv.sees s hold)
  · unfold abs
    dsimp only
    rw [habs, snaps_abs hs.stable fun s hsn => hinv.snap_mem hsn, hs.abs]

theorem Inv.step_exec (hinv : Inv w) (sql : Bytes) :
    StepCase w (.exec sql) (w.step (.exec sql)) := by
  simp only [step]
  have hc := Db.dbExec_spec hinv.wf hinv.live sql
  generalize hr : w.db.dbExec sql = r at hc
  cases hc with
  | fault hl => exact .fault hl
  | done hi hs =>
      obtain ⟨hinv', habs⟩ := hinv.settled hs
      refine .ok ?_ hinv'
      rw [habs]
      have hi' : w.abs.d.exec sql = _ := hi
      simp only [IdealWorld.step, bind, Except.bind, hi']
      rfl

theorem Inv.step_batch (hinv : Inv w) (sqls : List Bytes) (tx : Bool) :
    StepCase w (.batch sqls tx) (w.step (.batch sqls tx)) := by
  simp only [step]
  have hc := Db.dbBatch_spec hinv.wf hinv.live sqls tx
  generalize hr : w.db.dbBatch sqls tx = r at hc
  cases hc with
  | fault hl => exact .fault hl
  | done hi hs =>
      obtain ⟨hinv', habs⟩ := hinv.settled hs
      refine .ok ?_ hinv'
      rw [habs]
      have hi' : w.abs.d.batch sqls tx = _ := hi
      simp only [IdealWorld.step, bind, Except.bind, hi']
      rfl

theorem Inv.step_snap (hinv : Inv w) : StepCase w .snap (w.step .snap) := by
  have hst : Db.Stable (fun _ => True) w.db { w.db with mv := w.db.mv.mvSnap } :=
    (Db.mv_invisible _).1
  obtain ⟨hothers, habs⟩ := hinv.others (A := w.txs) hst (fun x hx => ⟨hx, trivial⟩)
    fun _ _ => rfl
  have hwf : ({ w.db with mv := w.db.mv.mvSnap } : Db).Wf (worksOf w.txs) :=
    hinv.wf.with_mv (Nat.le_refl _)
  have hnow : Db.seen { w.db with mv := w.db.mv.mvSnap } w.db.mv.curVer = w.db.com :=
    hinv.wf.seen_now
  simp only [step, Db.dbSnap, Mvcc.snapId]
  refine .ok ?_ ⟨hwf, hothers, ?_, hinv.live.begin hinv.wf, ?_⟩
  · unfold abs
    dsimp only
    rw [habs, List.map_append, snaps_abs hst fun _ _ => trivial]
    simp only [List.map_cons, List.map_nil, Option.map_some, hnow, IdealWorld.step,
      List.length_map]
    rfl
  · change (w.db.mv.snaps ++ [w.db.mv.curVer]).Perm
      (_ ++ (w.snaps ++ [some w.db.mv.curVer]).filterMap id)
    rw [List.filterMap_append, ← List.append_assoc]
    exact hinv.reg.append_right _
  · intro s hs
    rcases List.mem_append.1 hs with hs | hs
    · exact hst.sees s trivial (hinv.sees s hs)
    · rw [List.mem_singleton.1 hs]
      exact hwf.sees_now

theorem Inv.step_read (hinv : Inv w) (h : Nat) (sql : Bytes) :
    StepCase w (.read h sql) (w.step (.read h sql)) := by
  simp only [step]
  cases ht : w.snap? h with
  | none =>
      refine .ok ?_ hinv
      simp only [IdealWorld.step, abs_snap?, ht, Option.map_none]
  | some s =>
      have hmem := hinv.snap_mem (List.mem_of_getElem? (snap?_some ht))
      have hpos : ∀ s ∈ w.db.mv.snaps, 1 ≤ s := fun s hs => (hinv.live s hs).1
      dsimp only
      have hc := Db.doRead_spec hinv.wf (hpos s hmem) (hinv.sees s hmem) sql
      generalize hr : w.db.doRead s sql = r at hc
      cases hc with
      | fault hp hsel hl => exact .fault fun hcalm => hl (hcalm s ht _ hp hsel)
      | @read db' res ok hwf hp hi =>
          have hd : db'.abs = w.db.abs := by
            unfold Db.abs
            rw [hp.com, hp.maxSql, hp.maxQry, hp.mv]
          have hset : Db.Settled w.db db' (worksOf w.txs) w.db.abs :=
            ⟨hwf, hd, by rw [hp.mv], by rw [hp.mv], hp.stable.mono hpos, hp.works⟩
          obtain ⟨hinv', habs⟩ := hinv.settled hset
          refine .ok ?_ hinv'
          rw [habs]
          have hi' : w.abs.d.read s (w.db.seen s) sql = .ok (res, ok) := hi
          simp only [IdealWorld.step, abs_snap?, ht, Option.map_some, bind, Except.bind, hi']
          rfl

theorem Inv.step_done (hinv : Inv w) (h : Nat) : StepCase w (.done h) (w.step (.done h)) := by
  simp only [step]
  cases ht : w.snap? h with
  | none =>
      refine .ok ?_ hinv
      simp only [IdealWorld.step, abs_snap?, ht, Option.map_none]
  | some s =>
      obtain ⟨C, D, hsn, hlen, hset⟩ := split_at (snap?_some ht)
      have hmem := hinv.snap_mem (List.mem_of_getElem? (snap?_some ht))
      have hpos : ∀ s ∈ w.db.mv.snaps, 1 ≤ s := fun s hs => (hinv.live s hs).1
      obtain ⟨db', hrun, hr⟩ := Db.release_spec hinv.wf hpos s
      have hreg : db'.mv.snaps.Perm (ids ⟨db', w.txs, C ++ none :: D⟩) := by
        rw [hr.mv]
        refine mvGc_perm (hinv.reg.trans ?_) (hpos s hmem)
        have hw : w.ids = ids ⟨w.db, w.txs, C ++ some s :: D⟩ := by
          unfold ids
          rw [hsn]
        rw [hw]
        exact ids_done _ _ _ _ _
      have hold : ∀ s ∈ db'.mv.snaps, s ∈ w.db.mv.snaps := by
        intro s hs
        rw [hr.mv] at hs
        exact Db.mem_mvGc hs
      have hkept : ∀ x, some x ∈ C ++ none :: D → x ∈ db'.mv.snaps := fun x hx =>
        hreg.mem_iff.2 (List.mem_append_right _ (List.mem_filterMap.2 ⟨some x, hx, rfl⟩))
      obtain ⟨hothers, habs⟩ := hinv.others (A := w.txs) hr.stable (fun x hx => ⟨hx,
        hreg.mem_iff.2 (List.mem_append_left _ (List.mem_filterMap.2 ⟨some x, hx, rfl⟩))⟩) hr.works
      have hd : db'.abs = w.db.abs := by
        unfold Db.abs
        rw [hr.com, hr.maxSql, hr.maxQry, hr.mv, Db.mvGc_curVer]
      have hdone : w.db.dbDone s = .ok db' := hrun
      simp only [bind, Except.bind, hdone, hset]
      refine .ok ?_ ⟨hr.wf, hothers, hreg, ?_, fun s hs => hr.stable.sees s hs (hinv.sees s (hold s hs))⟩
      · have hset' : w.abs.snaps.set h none =
            (C ++ none :: D).map (Option.map fun s => (s, w.db.seen s)) := by
          rw [← hset none, List.map_set]
          rfl
        simp only [IdealWorld.step, abs_snap?, ht, Option.map_some, hset']
        unfold abs
        dsimp only
        rw [habs, snaps_abs hr.stable hkept, hd]
      · intro s hs
        rw [hr.mv, Db.mvGc_curVer]
        exact hinv.live s (hold s hs)

/-- **One call** keeps the invariant and is a step of the abstract world. -/
theorem Inv.step (hinv : Inv w) (c : Call) : StepCase w c (w.step c) := by
  cases c with
  | begin => exact hinv.step_begin
  | txdo h sql => exact hinv.step_txdo h sql
  | commit h => exact hinv.step_commit h
  | abort h => exact hinv.step_abort h
  | exec sql => exact hinv.step_exec sql
  | batch sqls tx => exact hinv.step_batch sqls tx
  | snap => exact hinv.step_snap
  | read h sql => exact hinv.step_read h sql
  | done h => exact hinv.step_done h

/-- Runs that end without a fault are runs of the abstract world. -/
theorem Inv.run_ok : ∀ (cs : List Call) {w w' : World} {os : List Out}, Inv w →
    w.run cs = .ok (w', os) → w.abs.run cs = .ok (w'.abs, os) ∧ Inv w'
  | [], w, w', os, hinv, h => by
      cases h
      exact ⟨rfl, hinv⟩
  | c :: cs, w, w', os, hinv, h => by
      rw [World.run] at h
      have hc := hinv.step c
      cases hs : w.step c with
      | error f =>
          rw [hs] at h
          cases h
      | ok r =>
          obtain ⟨w₁, o⟩ := r
          rw [hs] at hc
          simp only [bind, Except.bind, hs] at h
          cases hrest : w₁.run cs with
          | error f =>
              rw [hrest] at h
              cases h
          | ok r =>
              obtain ⟨w₂, os₂⟩ := r
              rw [hrest] at h
              cases h
              cases hc with
              | ok hi hinv₁ =>
                  obtain ⟨hi', hinv'⟩ := Inv.run_ok cs hinv₁ hrest
                  refine ⟨?_, hinv'⟩
                  rw [IdealWorld.run]
                  simp only [bind, Except.bind, hi, hi']
                  rfl

/-- Calm runs end without a fault. -/
theorem Inv.run_calm : ∀ (cs : List Call) {w : World}, Inv w → w.CalmRun cs →
    ∃ w' os, w.run cs = .ok (w', os)
  | [], w, _, _ => ⟨w, [], rfl⟩
  | c :: cs, w, hinv, hcalm => by
      rw [World.run]
      have hc := hinv.step c
      generalize hs : w.step c = r at hc
      cases hc with
      | fault hnot => exact absurd hcalm.1 hnot
      | @ok w₁ o hi hinv₁ =>
          obtain ⟨w', os, hrest⟩ := Inv.run_calm cs hinv₁ (hcalm.2 _ hs)
          simp only [bind, Except.bind, hrest]
          exact ⟨w', o :: os, rfl⟩

theorem init_inv (files : Bytes → Option Bytes) (maxSql maxQry : Int) :
    Inv (init files maxSql maxQry) where
  wf := ⟨by simp [init, dbOpen], by simp [init, dbOpen, Db.chains, worksOf],
    by simp [init, dbOpen], by simp [init, worksOf], Nat.le_refl 1⟩
  txs := by simp [init]
  reg := List.Perm.refl _
  live := by simp [init, dbOpen, Db.Live, Mvcc.mvNew]
  sees := by simp [init, dbOpen, Mvcc.mvNew]

/-- One table in one file. -/
def oneFile (file : Bytes) : Bytes → Option Bytes := fun n => if n = str "t" then some file else none

/-- The run ends without a fault in a world that passes the test. -/
def reaches (files : Bytes → Option Bytes) (maxSql maxQry : Int) (calls : List Call)
    (test : World → Bool) : Bool :=
  match (init files maxSql maxQry).run calls with
  | .ok (w, _) => test w
  | .error _ => false

theorem exists_of_reaches {files : Bytes → Option Bytes} {maxSql maxQry : Int}
    {calls : List Call} {test : World → Bool}
    (h : reaches files maxSql maxQry calls test = true) :
    ∃ w outs, (init files maxSql maxQry).run calls = .ok (w, outs) ∧ test w = true := by
  unfold reaches at h
  split at h
  · rename_i w outs hrun
    exact ⟨w, outs, hrun, h⟩
  · cases h

end World

end MiniDbms
