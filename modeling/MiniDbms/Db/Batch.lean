import MiniDbms.Db.Reach
import MiniDbms.Db.Twin

/-!
# A transactional batch and autocommit

`db_batch` with `tx` runs its statements on one working copy of each table; a
sequence of `db_exec` calls clones the table and rebuilds the indexes for every
statement.  Both keep twins of one another, so they accept the same statements and
end with the same rows.  This needs that `db_batch` accepts that many statements,
and that the incremental index of an INSERT agrees with the one a clone builds.
-/

namespace MiniDbms

open Bptree

namespace Db

/-- One `db_exec` after another, with the result and the return value of each. -/
def execSeq : Db → List Bytes → Except Fault (Db × List (DbRes × Bool))
  | db, [] => .ok (db, [])
  | db, sql :: sqls => do
    let (db, res, ok) ← db.dbExec sql
    let (db, out) ← execSeq db sqls
    return (db, (res, ok) :: out)

end Db

namespace Ideal

def execSeq : Ideal → List Bytes → Except Fault (Ideal × List (DbRes × Bool))
  | d, [] => .ok (d, [])
  | d, sql :: sqls => do
    let (d, res, ok) ← d.exec sql
    let (d, out) ← execSeq d sqls
    return (d, (res, ok) :: out)

end Ideal

namespace Db

theorem execSeq_spec : ∀ (sqls : List Bytes) {db : Db} {ws : List Nat}, db.Wf ws → db.Live →
    db.EachSafe sqls → ∃ db' d out, db.execSeq sqls = .ok (db', out) ∧
      db.abs.execSeq sqls = .ok (d, out) ∧ Settled db db' ws d
  | [], db, ws, hwf, _, _ => ⟨db, db.abs, [], rfl, rfl, Settled.refl hwf⟩
  | sql :: sqls, db, ws, hwf, hlive, hsafe => by
      rw [execSeq, Ideal.execSeq]
      have hc := dbExec_spec hwf hlive sql
      generalize hrun : db.dbExec sql = r at hc
      cases hc with
      | fault hl => exact absurd hsafe.1 hl
      | done hi hs =>
          obtain ⟨db', d', out, hrest, hi', hs'⟩ :=
            execSeq_spec sqls hs.wf (hs.live hlive) (hsafe.2 _ hrun)
          rw [hs.abs] at hi'
          simp only [bind, Except.bind, hi, hrest, hi']
          exact ⟨db', d', _, rfl, rfl, hs.trans hs'⟩

end Db

namespace TabVer

variable {tab tab' : TabVer} {stmt : Statement}

/-- The index entries INSERT makes are those a clone of the table would get: trimming
the PK text keeps its integer, and a table without a PK column has no row under the
key 0 yet. -/
def InsertKept (tab : TabVer) (stmt : Statement) : Prop :=
  tab.PkTextKept stmt ∧ (tab.pkIdx = none → search tab.pkTree 0 = none)

/-- Without a PK column every row is filed under 0. -/
def PkZero (tab : TabVer) : Prop :=
  tab.pkIdx = none → ∃ key, Indexes tab.pkTree key ∧ ∀ i k, key i = some k → k = 0

theorem PkUnused.pkZero (h : tab.PkUnused) : tab.PkZero :=
  fun hp => ⟨_, h hp, fun _ _ hk => nomatch hk⟩

theorem PkZero.unused (h : tab.PkZero) (hfree : tab.pkIdx = none → search tab.pkTree 0 = none) :
    tab.PkUnused := by
  intro hp
  obtain ⟨key, hidx, hzero⟩ := h hp
  have hnone : key = fun _ => none := by
    funext i
    cases hk : key i with
    | none => rfl
    | some k =>
        cases hzero i k hk
        have hs := (hidx.search_eq_some 0 i).2 hk
        rw [hfree hp] at hs
        cases hs
  exact hnone ▸ hidx

theorem PkZero.execStmt {res res' : DbRes} (h : tab.PkZero)
    (hins : stmt.type = .insert → tab.PkUnused)
    (hrun : tab.execStmt stmt res = .ok (tab', res', true)) : tab'.PkZero := by
  by_cases htype : stmt.type = .insert
  · unfold TabVer.execStmt at hrun
    rw [htype] at hrun
    obtain ⟨row, newId, -, he⟩ := insDo_entered hrun
    intro hp
    have hp₀ : tab.pkIdx = none := by
      rw [he.frame] at hp
      exact hp
    have hid : newId = 0 := by
      obtain ⟨autoPk, -, hrow⟩ := (rowNew_some he.values).cells
      unfold rowId at hrow
      rw [hp₀] at hrow
      simp only [Prod.mk.injEq, Option.some.injEq] at hrow
      exact hrow.2.1.symm
    have hf := bptreeInsert_indexes (hins htype hp₀) (n := tab.rows.length) rfl newId
    rw [he.pkTree] at hf
    refine ⟨_, hf.2, ?_⟩
    intro i k hk
    dsimp only at hk
    split at hk
    · cases hk
      exact hid
    · cases hk
  · unfold TabVer.execStmt at hrun
    split at hrun
    · have htab : tab = tab' := congrArg Prod.fst (Except.ok.inj hrun)
      exact htab ▸ h
    · contradiction
    · rcases updDo_cases (Except.ok.inj hrun) with ⟨hok, -⟩ | ⟨setIdx, hu⟩
      · cases hok
      · rcases hu.trees rfl with rfl | ⟨-, hidx⟩
        · exact h
        · exact hidx.pkUnused.pkZero
    · rcases delDo_cases (Except.ok.inj hrun) with ⟨hok, -⟩ | ⟨-, -, -, htrees⟩
      · cases hok
      · exact (htrees rfl).2.pkUnused.pkZero
    · cases hrun

/-- A clone is a twin of whatever its source is a twin of. -/
theorem Twin.clone {w c dst : TabVer} (h : Twin w c) (hc : c.tabClone = some dst) : Twin w dst := by
  obtain ⟨hframe, hcon, hidx⟩ := tabClone_spec hc
  refine ⟨?_, h.left, .of_built hcon hidx, h.shape⟩
  unfold SameContent
  have hsame := h.same
  unfold SameContent at hsame
  rw [hframe, hsame]
  rfl

/-- A fresh clone is its own twin. -/
theorem Twin.of_clone {src dst : TabVer} (hs : src.Shape) (hc : src.tabClone = some dst) :
    Twin dst dst := by
  obtain ⟨-, hcon, hidx⟩ := tabClone_spec hc
  exact ⟨rfl, .of_built hcon hidx, .of_built hcon hidx, (hs.tabClone hc).1⟩

theorem Twin.with_verId {w c : TabVer} (h : Twin w c) (ver : Nat) :
    Twin w { c with verId := ver } := by
  refine ⟨?_, h.left, ⟨h.right.pkInt, h.right.pk, h.right.uk⟩, h.shape⟩
  have hsame := h.same
  unfold SameContent at hsame ⊢
  rw [hsame]
  rfl

end TabVer

/-! ## The abstract batch and the abstract sequence -/

namespace IdealTx

/-- Every INSERT keeps the indexes as a clone would, where it starts. -/
def InsertsKept (maxSql : Int) : IdealTx → List Bytes → Prop
  | _, [] => True
  | tx, sql :: sqls =>
    (∀ stmt, parseSql maxSql sql = .ok stmt → stmt.type = .insert →
      ∀ tab, tx.own stmt.tableName.bytes = some tab → tab.InsertKept stmt) ∧
    ∀ r, tx.txdo maxSql sql = .ok r → r.2.2 = true → InsertsKept maxSql r.1 sqls

end IdealTx

/-- The transaction `tx` and the content `d` autocommit reached, both started at `d₀`. -/
structure Mirror (d₀ : Ideal) (tx : IdealTx) (d : Ideal) : Prop where
  seen : tx.seen = d₀.com
  maxSql : d.maxSql = d₀.maxSql
  fresh : ∀ n, tx.work n = none → d.com n = d₀.com n
  twin : ∀ n w, tx.work n = some w → ∃ c, d.com n = some c ∧ TabVer.Twin w c ∧ w.PkZero
  shape : ∀ n tab, d₀.com n = some tab → tab.Shape

namespace Mirror

variable {d₀ d : Ideal} {tx tx' : IdealTx} {stmt : Statement} {sql : Bytes}

theorem start (h : AllTabs (fun _ tab => tab.Shape) d₀.com) : Mirror d₀ d₀.begin d₀ :=
  ⟨rfl, rfl, fun _ _ => rfl, (fun _ _ hw => nomatch hw), h⟩

/-- What the transaction reads is what autocommit reads. -/
theorem select (h : Mirror d₀ tx d) (n : Bytes) :
    (tx.view n = none ∧ d.com n = none) ∨ ∃ tab c, tx.view n = some tab ∧ d.com n = some c ∧
      ∀ (stmt : Statement) res, c.selDo stmt res = tab.selDo stmt res := by
  unfold IdealTx.view
  cases hw : tx.work n with
  | none =>
      dsimp only
      rw [h.seen, h.fresh n hw]
      cases d₀.com n with
      | none => exact Or.inl ⟨rfl, rfl⟩
      | some tab => exact Or.inr ⟨tab, tab, rfl, rfl, fun _ _ => rfl⟩
  | some w =>
      obtain ⟨c, hc, htwin, -⟩ := h.twin n w hw
      exact Or.inr ⟨w, c, rfl, hc, fun _ res => htwin.selDo res⟩

theorem own (h : Mirror d₀ tx d) (n : Bytes) :
    (tx.own n = none ∧ (d.com n).bind TabVer.tabClone = none) ∨
      ∃ w base c, tx.own n = some w ∧ d.com n = some base ∧ base.tabClone = some c ∧
        TabVer.Twin w c ∧ w.PkZero := by
  unfold IdealTx.own
  cases hw : tx.work n with
  | none =>
      dsimp only
      rw [h.seen, h.fresh n hw]
      cases hbase : d₀.com n with
      | none => exact Or.inl ⟨rfl, rfl⟩
      | some base =>
          rw [Option.bind_some]
          cases hc : base.tabClone with
          | none => exact Or.inl ⟨rfl, rfl⟩
          | some c =>
              have hidx := (TabVer.tabClone_spec hc).2.2
              exact Or.inr ⟨c, base, c, rfl, rfl, hc, .of_clone (h.shape n base hbase) hc,
                hidx.pkUnused.pkZero⟩
  | some w =>
      obtain ⟨base, hbase, htwin, hzero⟩ := h.twin n w hw
      obtain ⟨c, hc⟩ := Option.isSome_iff_exists.1
        ((TabVer.tabClone_isSome_iff base).2 htwin.right.constraints)
      exact Or.inr ⟨w, base, c, rfl, hbase, hc, htwin.clone hc, hzero⟩

theorem put (h : Mirror d₀ tx d) {name : Bytes} {w c : TabVer} (htwin : TabVer.Twin w c)
    (hzero : w.PkZero) : Mirror d₀ (tx.put name w) (d.install (d.begin.put name c)) := by
  refine ⟨h.seen, h.maxSql, ?_, ?_, h.shape⟩
  · intro n hn
    unfold IdealTx.put at hn
    dsimp only at hn
    by_cases heq : n = name
    · rw [if_pos heq] at hn
      cases hn
    · rw [if_neg heq] at hn
      rw [← h.fresh n hn]
      change Db.override _ d.com _ n = _
      unfold Db.override IdealTx.put Ideal.begin
      dsimp only
      rw [if_neg heq]
  · intro n w' hn
    unfold IdealTx.put at hn
    dsimp only at hn
    by_cases heq : n = name
    · rw [if_pos heq] at hn
      cases hn
      refine ⟨{ c with verId := d.ver + 1 }, ?_, htwin.with_verId _, hzero⟩
      change Db.override _ d.com _ n = _
      unfold Db.override IdealTx.put Ideal.begin
      dsimp only
      rw [if_pos heq]
    · rw [if_neg heq] at hn
      obtain ⟨c', hc', ht⟩ := h.twin n w' hn
      refine ⟨c', ?_, ht⟩
      rw [← hc']
      change Db.override _ d.com _ n = _
      unfold Db.override IdealTx.put Ideal.begin
      dsimp only
      rw [if_neg heq]

theorem write (h : Mirror d₀ tx d) (hwr : stmt.isWr = true) {res : DbRes} {ok : Bool}
    (hkept : stmt.type = .insert → ∀ tab, tx.own stmt.tableName.bytes = some tab →
      tab.InsertKept stmt)
    (hrun : tx.run stmt = .ok (tx', res, ok)) :
    ∃ d' res', d.write stmt = .ok (d', res', ok) ∧
      (ok = true → Mirror d₀ tx' d' ∧ SameRes res res') := by
  unfold IdealTx.run at hrun
  unfold Ideal.write
  dsimp only at hrun ⊢
  rw [if_pos hwr] at hrun
  rcases h.own stmt.tableName.bytes with ⟨hown, hclone⟩ | ⟨w, base, c, hown, hbase, hc, htwin, hzero⟩
  · rw [hown] at hrun
    cases hrun
    cases hcom : d.com stmt.tableName.bytes with
    | none => exact ⟨_, _, rfl, by simp⟩
    | some base =>
        rw [hcom, Option.bind_some] at hclone
        dsimp only
        rw [hclone]
        exact ⟨_, _, rfl, by simp⟩
  · rw [hown] at hrun
    rw [hbase]
    dsimp only at hrun ⊢
    rw [hc]
    dsimp only
    have hin : stmt.type = .insert → ¬ w.Overruns ∧ ¬ c.Overruns ∧ w.PkTextKept stmt ∧
        w.PkUnused ∧ c.PkUnused := by
      intro ht
      refine ⟨?_, ?_, (hkept ht w hown).1, hzero.unused (hkept ht w hown).2,
        (TabVer.tabClone_spec hc).2.2.pkUnused⟩
      · intro hover
        have herr : runOn w stmt tx.snapId = .error .rowOverflow :=
          TabVer.execStmt_error_iff.2 ⟨ht, hover, rfl⟩
        simp only [bind, Except.bind, herr] at hrun
        cases hrun
      · intro hover
        rw [(TabVer.tabClone_spec hc).1] at hover
        exact Nat.lt_irrefl _ hover.2.1
    have hres : SameRes { snapId := tx.snapId } {} := ⟨rfl, rfl, rfl⟩
    obtain ⟨w', rw', c', rc', ok', hw', hc', hsame⟩ := htwin.execStmt hwr hin hres
    have hw'' : runOn w stmt tx.snapId = .ok (w', rw', ok') := hw'
    simp only [bind, Except.bind, hw''] at hrun
    simp only [bind, Except.bind, hc']
    cases hrun
    cases ok with
    | false => exact ⟨_, _, rfl, by simp⟩
    | true =>
        obtain ⟨htwin', hsr⟩ := hsame rfl
        have hzero' : w'.PkZero := hzero.execStmt (fun ht => (hin ht).2.2.2.1) hw'
        exact ⟨_, _, rfl, fun _ => ⟨h.put htwin' hzero', hsr⟩⟩

theorem read (h : Mirror d₀ tx d) (hwr : stmt.isWr = false)
    (hparse : parseSql d.maxSql sql = .ok stmt) {res : DbRes} {ok : Bool}
    (hrun : tx.run stmt = .ok (tx', res, ok)) :
    ∃ d' res', d.exec sql = .ok (d', res', ok) ∧
      (ok = true → Mirror d₀ tx' d' ∧ SameRes res res') := by
  unfold IdealTx.run at hrun
  dsimp only at hrun
  rw [if_neg (by simp [hwr])] at hrun
  unfold Ideal.exec
  rw [hparse]
  dsimp only
  cases htype : stmt.type with
  | insert => simp [Statement.isWr, htype] at hwr
  | update => simp [Statement.isWr, htype] at hwr
  | delete => simp [Statement.isWr, htype] at hwr
  | select =>
      rw [if_pos rfl]
      unfold Ideal.read
      rw [hparse]
      dsimp only
      rw [if_neg (by simp [htype])]
      rcases h.select stmt.tableName.bytes with ⟨hview, hcom⟩ | ⟨tab, c, hview, hcom, hsel⟩
      · rw [hview] at hrun
        rw [hcom]
        cases hrun
        exact ⟨_, _, rfl, by simp⟩
      · rw [hview] at hrun
        rw [hcom]
        dsimp only at hrun ⊢
        have hrunOn : ∀ (t : TabVer) (s : Nat), runOn t stmt s =
            .ok (t, (t.selDo stmt { snapId := s }).1, (t.selDo stmt { snapId := s }).2) := by
          intro t s
          unfold runOn TabVer.execStmt
          rw [htype]
        simp only [bind, Except.bind, hrunOn] at hrun ⊢
        cases hrun
        obtain ⟨hsr, hok⟩ := tab.selDo_sameRes stmt tx.snapId d.ver
        rw [hsel]
        refine ⟨d, _, ?_, fun _ => ⟨h, hsr⟩⟩
        rw [← hok]
        rfl
  | unrecognized =>
      rw [if_neg (by simp)]
      have hfalse : ok = false := by
        split at hrun
        · cases hrun
          rfl
        · rename_i tab hview
          have hfail : ∃ t r, runOn tab stmt tx.snapId = .ok (t, r, false) := by
            unfold runOn TabVer.execStmt
            rw [htype]
            exact ⟨_, _, rfl⟩
          obtain ⟨t, r, hfail⟩ := hfail
          simp only [bind, Except.bind, hfail] at hrun
          cases hrun
          rfl
      subst hfalse
      unfold Ideal.write
      dsimp only
      cases d.com stmt.tableName.bytes with
      | none => exact ⟨_, _, rfl, by simp⟩
      | some base =>
          dsimp only
          cases base.tabClone with
          | none => exact ⟨_, _, rfl, by simp⟩
          | some t =>
              have hfail : ∃ t' r, t.execStmt stmt {} = .ok (t', r, false) := by
                unfold TabVer.execStmt
                rw [htype]
                exact ⟨_, _, rfl⟩
              obtain ⟨t', r, hfail⟩ := hfail
              simp only [bind, Except.bind, hfail]
              exact ⟨_, _, rfl, by simp⟩

/-- **One statement** does the same in a transaction and on its own. -/
theorem txdo (h : Mirror d₀ tx d) {res : DbRes} {ok : Bool}
    (hkept : ∀ stmt, parseSql d₀.maxSql sql = .ok stmt → stmt.type = .insert →
      ∀ tab, tx.own stmt.tableName.bytes = some tab → tab.InsertKept stmt)
    (hrun : tx.txdo d₀.maxSql sql = .ok (tx', res, ok)) :
    ∃ d' res', d.exec sql = .ok (d', res', ok) ∧
      (ok = true → Mirror d₀ tx' d' ∧ SameRes res res') := by
  unfold IdealTx.txdo at hrun
  cases hparse : parseSql d₀.maxSql sql with
  | error err =>
      rw [hparse] at hrun
      cases hrun
      unfold Ideal.exec
      rw [h.maxSql, hparse]
      exact ⟨_, _, rfl, by simp⟩
  | ok stmt =>
      rw [hparse] at hrun
      dsimp only at hrun
      cases hwr : stmt.isWr with
      | false => exact h.read hwr (h.maxSql ▸ hparse) hrun
      | true =>
          obtain ⟨d', res', hwrite, hdone⟩ := h.write hwr (hkept stmt hparse) hrun
          refine ⟨d', res', ?_, hdone⟩
          unfold Ideal.exec
          rw [h.maxSql, hparse]
          dsimp only
          rw [if_neg, hwrite]
          intro htype
          simp [Statement.isWr, htype] at hwr

end Mirror

/-- Autocommit never overruns the rows: it works on fresh clones. -/
theorem Ideal.exec_total (d : Ideal) (sql : Bytes) : ∃ r, d.exec sql = .ok r := by
  unfold Ideal.exec
  cases hparse : parseSql d.maxSql sql with
  | error err => exact ⟨_, rfl⟩
  | ok stmt =>
      dsimp only
      by_cases hsel : stmt.type = .select
      · rw [if_pos hsel]
        unfold Ideal.read
        rw [hparse]
        dsimp only
        rw [if_neg (by simp [hsel])]
        cases d.com stmt.tableName.bytes with
        | none => exact ⟨_, rfl⟩
        | some tab =>
            dsimp only
            cases hrun : runOn tab stmt d.ver with
            | ok r =>
                simp only [bind, Except.bind]
                exact ⟨_, rfl⟩
            | error f =>
                obtain ⟨hins, -⟩ := TabVer.execStmt_error_iff.1 hrun
                rw [hsel] at hins
                cases hins
      · rw [if_neg hsel]
        unfold Ideal.write
        dsimp only
        cases d.com stmt.tableName.bytes with
        | none => exact ⟨_, rfl⟩
        | some base =>
            dsimp only
            cases hc : base.tabClone with
            | none => exact ⟨_, rfl⟩
            | some tab =>
                obtain ⟨r, hrun⟩ := TabVer.tabClone_execStmt hc stmt {}
                simp only [bind, Except.bind, hrun]
                cases r.2.2 <;> exact ⟨_, rfl⟩

theorem Ideal.execSeq_total : ∀ (sqls : List Bytes) (d : Ideal), ∃ r, d.execSeq sqls = .ok r
  | [], d => ⟨_, rfl⟩
  | sql :: sqls, d => by
      obtain ⟨r, hr⟩ := d.exec_total sql
      obtain ⟨r', hr'⟩ := Ideal.execSeq_total sqls r.1
      rw [Ideal.execSeq]
      simp only [bind, Except.bind, hr, hr']
      exact ⟨_, rfl⟩

/-- **A whole batch** and the sequence of its statements. -/
theorem Mirror.batchLoop {d₀ : Ideal} : ∀ (sqls : List Bytes) {tx tx' : IdealTx} {d : Ideal}
    {out : List DbRes} {ok : Bool}, Mirror d₀ tx d → tx.InsertsKept d₀.maxSql sqls →
      Ideal.batchLoop d₀.maxSql tx sqls = .ok (tx', out, ok) →
      ∃ d' outs, d.execSeq sqls = .ok (d', outs) ∧ (ok = true ↔ ∀ r ∈ outs, r.2 = true) ∧
        (ok = true → Mirror d₀ tx' d' ∧ List.Forall₂ (fun r r' => SameRes r r'.1) out outs)
  | [], tx, tx', d, out, ok, h, _, hrun => by
      cases hrun
      exact ⟨d, [], rfl, by simp, fun _ => ⟨h, .nil⟩⟩
  | sql :: sqls, tx, tx', d, out, ok, h, hkept, hrun => by
      rw [Ideal.batchLoop] at hrun
      rw [Ideal.execSeq]
      cases hone : tx.txdo d₀.maxSql sql with
      | error f =>
          simp only [bind, Except.bind, hone] at hrun
          cases hrun
      | ok r =>
          obtain ⟨tx₁, res, ok₁⟩ := r
          obtain ⟨d₁, res', hexec, hnext⟩ := h.txdo hkept.1 hone
          simp only [bind, Except.bind, hone] at hrun
          simp only [bind, Except.bind, hexec]
          cases ok₁ with
          | false =>
              -- the batch stops here, the sequence goes on
              obtain ⟨r, hr⟩ := Ideal.execSeq_total sqls d₁
              cases hrun
              rw [hr]
              refine ⟨r.1, _, rfl, ?_, by simp⟩
              simp
          | true =>
              obtain ⟨h₁, hsr⟩ := hnext rfl
              cases hrest : Ideal.batchLoop d₀.maxSql tx₁ sqls with
              | error f =>
                  rw [hrest] at hrun
                  cases hrun
              | ok r =>
                  rw [hrest] at hrun
                  cases hrun
                  obtain ⟨d', outs, hseq, hiff, hdone⟩ :=
                    Mirror.batchLoop sqls h₁ (hkept.2 _ hone rfl) hrest
                  rw [hseq]
                  refine ⟨d', _, rfl, ?_, fun hok => ⟨(hdone hok).1, .cons hsr (hdone hok).2⟩⟩
                  simpa using hiff

namespace Db

/-- `db_batch` with `tx` accepts the statements exactly when a sequence of `db_exec` calls
accepts each of them, and then gives the same results and leaves the same rows and
counters. -/
def BatchAgrees (db : Db) (sqls : List Bytes) : Prop :=
  ∃ db₁ out ok db₂ outs, db.dbBatch sqls true = .ok (db₁, out, ok) ∧
    db.execSeq sqls = .ok (db₂, outs) ∧ (ok = true ↔ ∀ r ∈ outs, r.2 = true) ∧
    (ok = true → List.Forall₂ (fun r r' => SameRes r r'.1) out outs ∧
      ∀ name, (db₁.com name).map (fun tab => (tab.rows, tab.nextId)) =
        (db₂.com name).map fun tab => (tab.rows, tab.nextId))

instance (tab : TabVer) (stmt : Statement) : Decidable (tab.InsertKept stmt) :=
  inferInstanceAs (Decidable ((∀ src : Bytes, tab.pkText stmt = some src → (parseL src).isSome →
    parseL (trimUq src) = parseL src) ∧ (_ → _)))

instance decidableInsertsKept (maxSql : Int) : (tx : IdealTx) → (sqls : List Bytes) →
    Decidable (tx.InsertsKept maxSql sqls)
  | _, [] => isTrue trivial
  | tx, sql :: sqls =>
    have : ∀ r : IdealTx × DbRes × Bool, Decidable (r.1.InsertsKept maxSql sqls) :=
      fun r => decidableInsertsKept maxSql r.1 sqls
    inferInstanceAs (Decidable ((∀ stmt : Statement, parseSql maxSql sql = .ok stmt →
      stmt.type = .insert → ∀ tab : TabVer, tx.own stmt.tableName.bytes = some tab →
        tab.InsertKept stmt) ∧
      ∀ r, tx.txdo maxSql sql = .ok r → r.2.2 = true → r.1.InsertsKept maxSql sqls))

end Db

theorem Mirror.content {d₀ d : Ideal} {tx : IdealTx} (h : Mirror d₀ tx d) (name : Bytes) :
    ((d₀.install tx).com name).map (fun tab => (tab.rows, tab.nextId)) =
      (d.com name).map fun tab => (tab.rows, tab.nextId) := by
  change (Db.override tx.work d₀.com _ name).map _ = _
  unfold Db.override
  cases hw : tx.work name with
  | none =>
      dsimp only
      rw [h.fresh name hw]
  | some w =>
      obtain ⟨c, hc, htwin, -⟩ := h.twin name w hw
      obtain ⟨hrows, -, -, hnext⟩ := htwin.same.fields
      simp only [hc, Option.map_some, hrows, hnext]

namespace World

variable {files : Bytes → Option Bytes} {maxSql maxQry : Int}

/-- **A batch that is not too long** agrees with its statements run one after another, in
every reachable store, when both stay inside the memory of the store and every INSERT
keeps the indexes as a clone would. -/
theorem batch_agrees_of_short {calls : List Call} {w : World} {outs : List Out} {sqls : List Bytes}
    (hrun : (init files maxSql maxQry).run calls = .ok (w, outs))
    (hshort : sqls.length ≤ w.db.maxQry) (hbatch : w.db.BatchCallSafe sqls true)
    (hseq : w.db.EachSafe sqls) (hkept : w.db.abs.begin.InsertsKept w.db.maxSql sqls) :
    w.db.BatchAgrees sqls := by
  obtain ⟨-, hinv⟩ := (init_inv files maxSql maxQry).run_ok calls hrun
  obtain ⟨db₂, d₂, outs₂, hexec, hideal₂, hset₂⟩ := Db.execSeq_spec sqls hinv.wf hinv.live hseq
  have hc := Db.dbBatch_spec hinv.wf hinv.live sqls true
  generalize hrun₁ : w.db.dbBatch sqls true = r at hc
  cases hc with
  | fault hnot => exact absurd hbatch hnot
  | @done db₁ d₁ out ok hideal₁ hset₁ =>
      have hstart : Mirror w.db.abs w.db.abs.begin w.db.abs := .start (com_shape hrun)
      have hcom₁ : db₁.com = d₁.com := congrArg Ideal.com hset₁.abs
      have hcom₂ : db₂.com = d₂.com := congrArg Ideal.com hset₂.abs
      refine ⟨db₁, out, ok, db₂, outs₂, hrun₁, hexec, ?_⟩
      rw [hcom₁, hcom₂]
      unfold Ideal.batch at hideal₁
      by_cases hnil : sqls = []
      · rw [if_pos hnil] at hideal₁
        subst hnil
        cases hideal₁
        cases hideal₂
        exact ⟨by simp, fun _ => ⟨.nil, fun _ => rfl⟩⟩
      · have hlong : ¬ w.db.abs.maxQry < sqls.length := Int.not_lt.2 hshort
        rw [if_neg hnil, if_neg hlong, if_pos rfl] at hideal₁
        cases hloop : Ideal.batchLoop w.db.abs.maxSql w.db.abs.begin sqls with
        | error f =>
            simp only [bind, Except.bind, hloop] at hideal₁
            cases hideal₁
        | ok r =>
            obtain ⟨tx', out', ok'⟩ := r
            obtain ⟨d', outs', hseq', hiff, hdone⟩ := hstart.batchLoop sqls hkept hloop
            rw [hideal₂] at hseq'
            cases hseq'
            simp only [bind, Except.bind, hloop] at hideal₁
            cases ok' with
            | false =>
                cases hideal₁
                exact ⟨hiff, by simp⟩
            | true =>
                cases hideal₁
                exact ⟨hiff, fun hok => ⟨(hdone hok).2, (hdone hok).1.content⟩⟩

/-- An INSERT, an UPDATE of the new row and a SELECT. -/
theorem batch_agrees_insert_update_select :
    ((init (oneFile (str "id(PK),v\n1,a\n")) 0 8).db).BatchAgrees
      [str "INSERT INTO t VALUES (2,b)", str "UPDATE t SET v = 'c' WHERE id = 2",
        str "SELECT * FROM t WHERE id = 2"] := by
  have hrun : (init (oneFile (str "id(PK),v\n1,a\n")) 0 8).run [] = .ok (_, []) := rfl
  exact batch_agrees_of_short hrun (by decide +kernel) (by decide +kernel) (by decide +kernel)
    (by decide +kernel)

/-- With room for one statement, `db_batch` refuses two SELECTs that `db_exec` runs. -/
theorem batch_refuses_two_selects :
    ¬ ((init (oneFile (str "id(PK)\n1\n")) 0 1).db).BatchAgrees
      [str "SELECT * FROM t", str "SELECT * FROM t"] := by
  rintro ⟨db₁, out, ok, db₂, outs, hbatch, hseq, hiff, -⟩
  have hfail : ((init (oneFile (str "id(PK)\n1\n")) 0 1).db.dbBatch
      [str "SELECT * FROM t", str "SELECT * FROM t"] true).toOption.all (fun r => !r.2.2) = true := by
    decide +kernel
  have hall : ((init (oneFile (str "id(PK)\n1\n")) 0 1).db.execSeq
      [str "SELECT * FROM t", str "SELECT * FROM t"]).toOption.all (fun r => r.2.all (·.2)) =
        true := by
    decide +kernel
  rw [hbatch] at hfail
  rw [hseq] at hall
  simp only [Except.toOption, Option.all_some, Bool.not_eq_true', List.all_eq_true] at hfail hall
  rw [hfail] at hiff
  exact absurd (hiff.2 hall) (by decide)

end World

end MiniDbms
