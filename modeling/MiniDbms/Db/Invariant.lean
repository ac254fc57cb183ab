import MiniDbms.Db.Reach

/-!
# Constraints and indexes of the committed tables

Autocommit statements and batches keep every committed table consistent: its
constraints hold and its indexes file exactly its rows.  INSERT files a row under
the integer of the raw PK text, so this needs that trimming the text does not
change the integer.
-/

namespace MiniDbms

open Bptree

namespace TabVer

/-- What every committed version should satisfy. -/
structure Consistent (tab : TabVer) : Prop where
  cells : ∀ row ∈ tab.rows, row.length = tab.cols.length
  nn : ∀ row ∈ tab.rows, ∀ i < tab.cols.length, tab.colType i = .nn → cell row i ≠ []
  pkInt : ∀ p, tab.pkIdx = some p → ∀ row ∈ tab.rows, (parseL (cell row p)).isSome
  pkDistinct : ∀ p, tab.pkIdx = some p → Distinct (pkVal (some p)) tab.rows
  /-- the tree holds the integer of each row with the row's index, and nothing else -/
  pkTree : ∀ p, tab.pkIdx = some p → ∀ key i,
    ((key, i) ∈ tab.pkTree.toList ↔ keyAt (pkVal (some p)) tab.rows i = some key) ∧
    (search tab.pkTree key = some i ↔ keyAt (pkVal (some p)) tab.rows i = some key)
  ukDistinct : ∀ c ∈ tab.ukIdx, Distinct (ukText c) tab.rows
  ukTree : List.Forall₂ (fun c tree => ∀ key i,
    ((key, i) ∈ tree.toList ↔ keyAt (ukText c) tab.rows i = some key) ∧
    (search tree key = some i ↔ keyAt (ukText c) tab.rows i = some key)) tab.ukIdx tab.ukTree

theorem Sound.consistent {tab : TabVer} (h : tab.Sound) (hs : tab.Shape) : tab.Consistent where
  cells := hs.cells
  nn := h.nn
  pkInt := h.pkInt
  pkDistinct := fun p hp => hp ▸ (h.pk p hp).distinct
  pkTree := fun p hp key i => by
    have hidx := h.pk p hp
    rw [hp] at hidx
    exact ⟨hidx.mem_iff key i, hidx.search_eq_some key i⟩
  ukDistinct := fun c hc => by
    obtain ⟨t, ht⟩ := h.uk.exists_of_mem hc
    exact ht.distinct
  ukTree := h.uk.imp fun _ _ ht key i => ⟨ht.mem_iff key i, ht.search_eq_some key i⟩

theorem Sound.with_verId {tab : TabVer} (h : tab.Sound) (ver : Nat) :
    ({ tab with verId := ver } : TabVer).Sound := ⟨⟨h.pkInt, h.pk, h.uk⟩, h.nn⟩

end TabVer

/-! ## The abstract database -/

section

variable {files : Bytes → Option Bytes}

/-- A table that came from a file and is still in order. -/
def GoodTab (files : Bytes → Option Bytes) (name : Bytes) (tab : TabVer) : Prop :=
  tab.Sound ∧ tab.Shape ∧ ∃ tab₀, loadable name (files name) = some tab₀ ∧ TabVer.SameSchema tab₀ tab

def GoodTabs (files : Bytes → Option Bytes) (tabs : Tables) : Prop :=
  ∀ name tab, tabs name = some tab → GoodTab files name tab

/-- No INSERT text loses its PK integer when it is trimmed. -/
def KeepsPk (files : Bytes → Option Bytes) (maxSql : Int) (sql : Bytes) : Prop :=
  ∀ stmt, parseSql maxSql sql = .ok stmt → stmt.type = .insert →
    ∀ tab, loadable stmt.tableName.bytes (files stmt.tableName.bytes) = some tab →
      tab.PkTextKept stmt

theorem GoodTab.tabClone {name : Bytes} {tab dst : TabVer} (h : GoodTab files name tab)
    (hc : tab.tabClone = some dst) : GoodTab files name dst := by
  obtain ⟨hsound, hshape, tab₀, hload, hschema⟩ := h
  obtain ⟨hshape', hschema'⟩ := hshape.tabClone hc
  exact ⟨hsound.tabClone hc, hshape', tab₀, hload, hschema.trans hschema'⟩

theorem PkTextKept.congr {tab tab' : TabVer} {stmt : Statement} (h : tab.PkTextKept stmt)
    (hs : TabVer.SameSchema tab tab') : tab'.PkTextKept stmt := by
  intro src hsrc
  unfold TabVer.pkText at hsrc
  rw [hs.pkIdx, hs.cols] at hsrc
  exact h src hsrc

theorem GoodTab.execStmt {tab tab' : TabVer} {stmt : Statement} {res res' : DbRes}
    (h : GoodTab files stmt.tableName.bytes tab)
    (hkeep : stmt.type = .insert → ∀ tab,
      loadable stmt.tableName.bytes (files stmt.tableName.bytes) = some tab → tab.PkTextKept stmt)
    (hrun : tab.execStmt stmt res = .ok (tab', res', true)) :
    GoodTab files stmt.tableName.bytes tab' := by
  obtain ⟨hsound, hshape, tab₀, hload, hschema⟩ := h
  obtain ⟨hshape', hschema'⟩ := hshape.execStmt hrun
  exact ⟨hsound.execStmt hshape (fun ht => PkTextKept.congr (hkeep ht tab₀ hload) hschema) hrun,
    hshape', tab₀, hload, hschema.trans hschema'⟩

theorem GoodTabs.override {work com : Tables} (hw : GoodTabs files work) (hc : GoodTabs files com)
    (ver : Nat) : GoodTabs files (Db.override work com ver) := by
  intro name tab htab
  unfold Db.override at htab
  cases hwork : work name with
  | none =>
      rw [hwork] at htab
      exact hc name tab htab
  | some t =>
      rw [hwork] at htab
      cases htab
      obtain ⟨hsound, hshape, tab₀, hload, hschema⟩ := hw name t hwork
      exact ⟨hsound.with_verId ver, hshape.with_verId ver, tab₀, hload,
        hschema.name, hschema.cols, hschema.pkIdx, hschema.ukIdx⟩

/-- The tables a transaction of the abstract database works with. -/
structure GoodTx (files : Bytes → Option Bytes) (tx : IdealTx) : Prop where
  seen : GoodTabs files tx.seen
  work : GoodTabs files tx.work

theorem GoodTx.begin {d : Ideal} (h : GoodTabs files d.com) : GoodTx files d.begin :=
  ⟨h, fun _ _ hn => nomatch hn⟩

theorem GoodTx.put {tx : IdealTx} (h : GoodTx files tx) {name : Bytes} {tab : TabVer}
    (ht : GoodTab files name tab) : GoodTx files (tx.put name tab) := by
  refine ⟨h.seen, ?_⟩
  intro n t hn
  unfold IdealTx.put at hn
  dsimp only at hn
  split at hn
  · rename_i heq
    cases hn
    exact heq ▸ ht
  · exact h.work n t hn

theorem GoodTx.own {tx : IdealTx} (h : GoodTx files tx) {name : Bytes} {tab : TabVer}
    (ho : tx.own name = some tab) : GoodTab files name tab := by
  unfold IdealTx.own at ho
  split at ho
  · rename_i t hw
    cases ho
    exact h.work name _ hw
  · obtain ⟨base, hb, hc⟩ := Option.bind_eq_some_iff.1 ho
    exact (h.seen name base hb).tabClone hc

theorem GoodTx.txdo {tx tx' : IdealTx} {maxSql : Int} {sql : Bytes} {res : DbRes}
    (h : GoodTx files tx) (hkeep : KeepsPk files maxSql sql)
    (hrun : tx.txdo maxSql sql = .ok (tx', res, true)) : GoodTx files tx' := by
  unfold IdealTx.txdo at hrun
  cases hparse : parseSql maxSql sql with
  | error err =>
      rw [hparse] at hrun
      cases hrun
  | ok stmt =>
      rw [hparse] at hrun
      dsimp only at hrun
      unfold IdealTx.run at hrun
      dsimp only at hrun
      split at hrun
      · split at hrun
        · cases hrun
        · rename_i tab hown
          cases hexec : runOn tab stmt tx.snapId with
          | error f =>
              simp only [bind, Except.bind, hexec] at hrun
              cases hrun
          | ok r =>
              obtain ⟨tab', res', ok⟩ := r
              simp only [bind, Except.bind, hexec] at hrun
              cases hrun
              exact h.put ((h.own hown).execStmt (hkeep stmt hparse) hexec)
      · split at hrun
        · cases hrun
        · rename_i tab hview
          cases hexec : runOn tab stmt tx.snapId with
          | error f =>
              simp only [bind, Except.bind, hexec] at hrun
              cases hrun
          | ok r =>
              obtain ⟨tab', res', ok⟩ := r
              simp only [bind, Except.bind, hexec] at hrun
              cases hrun
              exact h

theorem GoodTx.batchLoop {maxSql : Int} : ∀ (sqls : List Bytes) {tx tx' : IdealTx}
    {out : List DbRes}, GoodTx files tx → (∀ sql ∈ sqls, KeepsPk files maxSql sql) →
      Ideal.batchLoop maxSql tx sqls = .ok (tx', out, true) → GoodTx files tx'
  | [], tx, tx', out, h, _, hrun => by
      cases hrun
      exact h
  | sql :: sqls, tx, tx', out, h, hkeep, hrun => by
      rw [Ideal.batchLoop] at hrun
      cases hone : tx.txdo maxSql sql with
      | error f =>
          simp only [bind, Except.bind, hone] at hrun
          cases hrun
      | ok r =>
          obtain ⟨tx₁, res, ok⟩ := r
          simp only [bind, Except.bind, hone] at hrun
          cases ok with
          | false => cases hrun
          | true =>
              have h₁ := h.txdo (hkeep sql List.mem_cons_self) hone
              cases hrest : Ideal.batchLoop maxSql tx₁ sqls with
              | error f =>
                  rw [hrest] at hrun
                  cases hrun
              | ok r =>
                  obtain ⟨tx₂, out₂, ok₂⟩ := r
                  rw [hrest] at hrun
                  cases hrun
                  exact GoodTx.batchLoop sqls h₁
                    (fun x hx => hkeep x (List.mem_cons_of_mem _ hx)) hrest

theorem GoodTabs.write {d d' : Ideal} {stmt : Statement} {res : DbRes} {ok : Bool}
    (h : GoodTabs files d.com)
    (hkeep : stmt.type = .insert → ∀ tab,
      loadable stmt.tableName.bytes (files stmt.tableName.bytes) = some tab → tab.PkTextKept stmt)
    (hrun : d.write stmt = .ok (d', res, ok)) : GoodTabs files d'.com ∧ d'.maxSql = d.maxSql := by
  unfold Ideal.write at hrun
  dsimp only at hrun
  split at hrun
  · cases hrun
    exact ⟨h, rfl⟩
  · rename_i base hbase
    split at hrun
    · cases hrun
      exact ⟨h, rfl⟩
    · rename_i tab hclone
      cases hexec : tab.execStmt stmt {} with
      | error f =>
          simp only [bind, Except.bind, hexec] at hrun
          cases hrun
      | ok r =>
          obtain ⟨tab', res', ok'⟩ := r
          simp only [bind, Except.bind, hexec] at hrun
          cases ok' with
          | false =>
              cases hrun
              exact ⟨h, rfl⟩
          | true =>
              cases hrun
              have hgood := ((h _ base hbase).tabClone hclone).execStmt hkeep hexec
              exact ⟨GoodTabs.override ((GoodTx.begin h).put hgood).work h _, rfl⟩

theorem GoodTabs.exec {d d' : Ideal} {sql : Bytes} {res : DbRes} {ok : Bool}
    (h : GoodTabs files d.com) (hkeep : KeepsPk files d.maxSql sql)
    (hrun : d.exec sql = .ok (d', res, ok)) : GoodTabs files d'.com ∧ d'.maxSql = d.maxSql := by
  unfold Ideal.exec at hrun
  cases hparse : parseSql d.maxSql sql with
  | error err =>
      rw [hparse] at hrun
      cases hrun
      exact ⟨h, rfl⟩
  | ok stmt =>
      rw [hparse] at hrun
      dsimp only at hrun
      split at hrun
      · cases hread : d.read d.ver d.com sql with
        | error f =>
            simp only [bind, Except.bind, hread] at hrun
            cases hrun
        | ok r =>
            simp only [bind, Except.bind, hread] at hrun
            cases hrun
            exact ⟨h, rfl⟩
      · exact h.write (hkeep stmt hparse) hrun

theorem GoodTabs.batchEach : ∀ (sqls : List Bytes) {d d' : Ideal} {out : List DbRes},
    GoodTabs files d.com → (∀ sql ∈ sqls, KeepsPk files d.maxSql sql) →
      d.batchEach sqls = .ok (d', out) → GoodTabs files d'.com ∧ d'.maxSql = d.maxSql
  | [], d, d', out, h, _, hrun => by
      cases hrun
      exact ⟨h, rfl⟩
  | sql :: sqls, d, d', out, h, hkeep, hrun => by
      rw [Ideal.batchEach] at hrun
      cases hone : d.exec sql with
      | error f =>
          simp only [bind, Except.bind, hone] at hrun
          cases hrun
      | ok r =>
          obtain ⟨d₁, res, ok⟩ := r
          obtain ⟨h₁, hmax⟩ := h.exec (hkeep sql List.mem_cons_self) hone
          simp only [bind, Except.bind, hone] at hrun
          cases hrest : d₁.batchEach sqls with
          | error f =>
              rw [hrest] at hrun
              cases hrun
          | ok r =>
              obtain ⟨d₂, out₂⟩ := r
              rw [hrest] at hrun
              cases hrun
              obtain ⟨h₂, hmax₂⟩ := GoodTabs.batchEach sqls h₁
                (fun x hx => hmax ▸ hkeep x (List.mem_cons_of_mem _ hx)) hrest
              exact ⟨h₂, hmax₂.trans hmax⟩

theorem GoodTabs.batch {d d' : Ideal} {sqls : List Bytes} {tx : Bool} {out : List DbRes} {ok : Bool}
    (h : GoodTabs files d.com) (hkeep : ∀ sql ∈ sqls, KeepsPk files d.maxSql sql)
    (hrun : d.batch sqls tx = .ok (d', out, ok)) :
    GoodTabs files d'.com ∧ d'.maxSql = d.maxSql := by
  unfold Ideal.batch at hrun
  split at hrun
  · cases hrun
    exact ⟨h, rfl⟩
  · split at hrun
    · cases hrun
      exact ⟨h, rfl⟩
    · split at hrun
      · cases hloop : Ideal.batchLoop d.maxSql d.begin sqls with
        | error f =>
            simp only [bind, Except.bind, hloop] at hrun
            cases hrun
        | ok r =>
            obtain ⟨tx', out', ok'⟩ := r
            simp only [bind, Except.bind, hloop] at hrun
            cases ok' with
            | false =>
                cases hrun
                exact ⟨h, rfl⟩
            | true =>
                cases hrun
                have htx := GoodTx.batchLoop sqls (GoodTx.begin h) hkeep hloop
                exact ⟨GoodTabs.override htx.work h _, rfl⟩
      · cases heach : d.batchEach sqls with
        | error f =>
            simp only [bind, Except.bind, heach] at hrun
            cases hrun
        | ok r =>
            simp only [bind, Except.bind, heach] at hrun
            cases hrun
            exact h.batchEach sqls hkeep heach

end

/-! ## Runs -/

namespace World

/-- The statements of a call that commits on its own; `none` for the other calls. -/
def autoSqls : Call → Option (List Bytes)
  | .exec sql => some [sql]
  | .batch sqls _ => some sqls
  | _ => none

variable {files : Bytes → Option Bytes} {maxSql maxQry : Int}

theorem goodTabs_run : ∀ (calls : List Call) {w w' : IdealWorld} {outs : List Out},
    GoodTabs files w.d.com → w.d.maxSql = maxSql →
    (∀ c ∈ calls, ∃ sqls, autoSqls c = some sqls ∧ ∀ sql ∈ sqls, KeepsPk files maxSql sql) →
      w.run calls = .ok (w', outs) → GoodTabs files w'.d.com
  | [], w, w', outs, h, _, _, hrun => by
      cases hrun
      exact h
  | c :: calls, w, w', outs, h, hmax, hcalls, hrun => by
      rw [IdealWorld.run] at hrun
      obtain ⟨sqls, hc, hkeep⟩ := hcalls c List.mem_cons_self
      cases hstep : w.step c with
      | error f =>
          simp only [bind, Except.bind, hstep] at hrun
          cases hrun
      | ok r =>
          obtain ⟨w₁, o⟩ := r
          have h₁ : GoodTabs files w₁.d.com ∧ w₁.d.maxSql = maxSql := by
            cases c with
            | exec sql =>
                cases hc
                simp only [IdealWorld.step] at hstep
                cases hexec : w.d.exec sql with
                | error f =>
                    simp only [bind, Except.bind, hexec] at hstep
                    cases hstep
                | ok r =>
                    simp only [bind, Except.bind, hexec] at hstep
                    cases hstep
                    rw [← hmax] at hkeep ⊢
                    exact h.exec (hkeep sql List.mem_cons_self) hexec
            | batch sqls tx =>
                cases hc
                simp only [IdealWorld.step] at hstep
                cases hbatch : w.d.batch sqls tx with
                | error f =>
                    simp only [bind, Except.bind, hbatch] at hstep
                    cases hstep
                | ok r =>
                    simp only [bind, Except.bind, hbatch] at hstep
                    cases hstep
                    rw [← hmax] at hkeep ⊢
                    exact h.batch hkeep hbatch
            | _ => cases hc
          simp only [bind, Except.bind, hstep] at hrun
          cases hrest : w₁.run calls with
          | error f =>
              rw [hrest] at hrun
              cases hrun
          | ok r =>
              rw [hrest] at hrun
              cases hrun
              exact goodTabs_run calls h₁.1 h₁.2
                (fun x hx => hcalls x (List.mem_cons_of_mem _ hx)) hrest

/-- The rows of every file satisfy the NN columns of its header. -/
def FilesNn (files : Bytes → Option Bytes) : Prop :=
  ∀ name tab, loadable name (files name) = some tab → ∀ row ∈ tab.rows,
    ∀ i < tab.cols.length, tab.colType i = .nn → cell row i ≠ []

theorem goodTabs_files (h : FilesNn files) : GoodTabs files fun n => loadable n (files n) := by
  intro name tab htab
  change loadable name (files name) = some tab at htab
  obtain ⟨hshape, -, -, hcon, hidx⟩ := TabVer.tabLoad_shape (loadable_eq htab)
  exact ⟨⟨.of_built hcon hidx, h name tab htab⟩, hshape, tab, htab, TabVer.SameSchema.refl tab⟩

/-- Every head of the store is consistent. -/
def HeadsConsistent (db : Db) : Prop :=
  ∀ e ∈ db.tabs, ∃ a rest tab, e.chain = a :: rest ∧ db.heap.get a = some tab ∧ tab.Consistent

theorem Inv.head {w : World} (h : Inv w) {e : TabEnt} (he : e ∈ w.db.tabs) :
    ∃ a rest tab, e.chain = a :: rest ∧ w.db.heap.get a = some tab ∧ w.db.com e.name = some tab := by
  obtain ⟨k, hk⟩ := List.mem_iff_getElem?.1 he
  have hok := h.wf.chain e he
  cases hc : e.chain with
  | nil => exact absurd hc hok.nonempty
  | cons a rest =>
      obtain ⟨tab, htab, -⟩ := hok.live a (hc ▸ List.mem_cons_self)
      refine ⟨a, rest, tab, rfl, htab, ?_⟩
      unfold Db.com Db.headAddr
      rw [h.wf.getEnt_eq hk]
      dsimp only
      rw [hk, Option.bind_some, hc, List.head?_cons, Option.bind_some, htab]

/-- **Constraints and indexes** hold of every head that `db_exec` and `db_batch` calls
produce, when no INSERT text loses its PK integer and the calls stay inside the memory
of the store. -/
theorem heads_consistent_of_keepsPk {calls : List Call} (hnn : FilesNn files)
    (hcalls : ∀ c ∈ calls, ∃ sqls, autoSqls c = some sqls ∧ ∀ sql ∈ sqls, KeepsPk files maxSql sql)
    (hcalm : (init files maxSql maxQry).CalmRun calls) :
    ∃ w outs, (init files maxSql maxQry).run calls = .ok (w, outs) ∧ HeadsConsistent w.db := by
  obtain ⟨w, outs, hrun⟩ := (init_inv files maxSql maxQry).run_calm calls hcalm
  obtain ⟨hideal, hinv⟩ := (init_inv files maxSql maxQry).run_ok calls hrun
  have hgood : GoodTabs files w.abs.d.com :=
    goodTabs_run calls (goodTabs_files hnn) rfl hcalls hideal
  refine ⟨w, outs, hrun, ?_⟩
  intro e he
  obtain ⟨a, rest, tab, hc, htab, hcom⟩ := hinv.head he
  obtain ⟨hsound, hshape, -⟩ := hgood e.name tab hcom
  exact ⟨a, rest, tab, hc, htab, hsound.consistent hshape⟩

theorem oneFile_nn {file : Bytes} (h : ∀ tab, loadable (str "t") (some file) = some tab →
      ∀ row ∈ tab.rows, ∀ i < tab.cols.length, tab.colType i = .nn → cell row i ≠ []) :
    FilesNn (oneFile file) := by
  intro name tab hload
  unfold oneFile at hload
  split at hload
  · rename_i heq
    subst heq
    exact h tab hload
  · cases hload

instance (files : Bytes → Option Bytes) (maxSql : Int) (sql : Bytes) :
    Decidable (KeepsPk files maxSql sql) :=
  inferInstanceAs (Decidable (∀ stmt : Statement, parseSql maxSql sql = .ok stmt →
    stmt.type = .insert → ∀ tab : TabVer,
      loadable stmt.tableName.bytes (files stmt.tableName.bytes) = some tab →
        ∀ src : Bytes, tab.pkText stmt = some src → (parseL src).isSome →
          parseL (trimUq src) = parseL src))

/-- An INSERT with blanks before the key, and an UPDATE. -/
theorem heads_consistent_insert_update : ∃ w outs,
    (init (oneFile (str "id(PK),v(NN)\n1,a\n")) 0 8).run
      [.exec (str "INSERT INTO t VALUES (  12,b)"),
        .batch [str "UPDATE t SET v = 'c' WHERE id = 12"] true] = .ok (w, outs) ∧
    HeadsConsistent w.db := by
  refine heads_consistent_of_keepsPk (oneFile_nn (by decide +kernel)) ?_ (by decide +kernel)
  simp only [List.forall_mem_cons, List.not_mem_nil, false_implies, implies_true, and_true]
  exact ⟨⟨_, rfl, by decide +kernel⟩, ⟨_, rfl, by decide +kernel⟩⟩

/-- The row whose PK cell is 12 is filed under 1: the key is read from the first 255
bytes of the text, and the cell from all of it. -/
theorem heads_inconsistent_cut_pk : ∃ w outs,
    (init (oneFile (str "id(PK),v(NN)\n1,a\n")) 0 8).run
      [.exec (str "DELETE FROM t WHERE id = 1"),
        .exec (str "INSERT INTO t VALUES (" ++ List.replicate 254 (32 : UInt8) ++ str "12,b)")] =
        .ok (w, outs) ∧
    FilesNn (oneFile (str "id(PK),v(NN)\n1,a\n")) ∧ ¬ HeadsConsistent w.db := by
  obtain ⟨w, outs, hrun, htest⟩ : ∃ w outs, (init (oneFile (str "id(PK),v(NN)\n1,a\n")) 0 8).run
      [.exec (str "DELETE FROM t WHERE id = 1"),
        .exec (str "INSERT INTO t VALUES (" ++ List.replicate 254 (32 : UInt8) ++ str "12,b)")] =
        .ok (w, outs) ∧
      (w.db.tabs.any fun e => e.chain.head?.any fun a => (w.db.heap.get a).any fun tab =>
        tab.pkIdx == some 0 && keyAt (pkVal (some 0)) tab.rows 0 == some 12 &&
          search tab.pkTree 12 == none) = true := exists_of_reaches (by decide +kernel)
  refine ⟨w, outs, hrun, oneFile_nn (by decide +kernel), fun hcons => ?_⟩
  obtain ⟨e, he, htest⟩ := List.any_eq_true.1 htest
  obtain ⟨a, rest, tab, hchain, hget, htab⟩ := hcons e he
  rw [hchain, List.head?_cons, Option.any_some, hget, Option.any_some] at htest
  simp only [Bool.and_eq_true, beq_iff_eq] at htest
  obtain ⟨⟨hpk, hkey⟩, hsearch⟩ := htest
  rw [((htab.pkTree 0 hpk 12 0).2).2 hkey] at hsearch
  cases hsearch

end World

end MiniDbms
