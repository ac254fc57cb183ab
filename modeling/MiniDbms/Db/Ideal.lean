import MiniDbms.Db.Commit

/-!
# Snapshot isolation, abstractly

A database without versions, addresses or files: one committed content, and
transactions that read the content of their start and keep their own changes
apart.  It says what the version chains, the lazy loading and the pruning of
`dbapi.c` are for.
-/

namespace MiniDbms

/-- A transaction: the content at its start, and the tables it changed. -/
structure IdealTx where
  snapId : Nat
  seen : Tables
  work : Tables

/-- The committed content.  `ver` counts the commits. -/
structure Ideal where
  ver : Nat
  com : Tables
  maxSql : Int
  maxQry : Int

/-- A statement on one version. -/
def runOn (tab : TabVer) (stmt : Statement) (snap : Nat) :
    Except Fault (TabVer × DbRes × Bool) := tab.execStmt stmt { snapId := snap }

namespace IdealTx

/-- The copy of a table that a write statement of the transaction changes. -/
def own (tx : IdealTx) (name : Bytes) : Option TabVer :=
  match tx.work name with
  | some tab => some tab
  | none => (tx.seen name).bind TabVer.tabClone

/-- The content a SELECT of the transaction is evaluated on. -/
def view (tx : IdealTx) (name : Bytes) : Option TabVer :=
  match tx.work name with
  | some tab => some tab
  | none => tx.seen name

def put (tx : IdealTx) (name : Bytes) (tab : TabVer) : IdealTx :=
  { tx with work := fun n => if n = name then some tab else tx.work n }

def run (tx : IdealTx) (stmt : Statement) : Except Fault (IdealTx × DbRes × Bool) :=
  let name := stmt.tableName.bytes
  let res : DbRes := {}
  if stmt.isWr then
    match tx.own name with
    | none => .ok (tx, res.fail .oom "out of memory", false)
    | some tab => do
      let (tab, res, ok) ← runOn tab stmt tx.snapId
      return (tx.put name tab, res, ok)
  else
    match tx.view name with
    | none => .ok (tx, res.fail .badSql "unknown table", false)
    | some tab => do
      let (_, res, ok) ← runOn tab stmt tx.snapId
      return (tx, res, ok)

def txdo (maxSql : Int) (tx : IdealTx) (sql : Bytes) : Except Fault (IdealTx × DbRes × Bool) :=
  match parseSql maxSql sql with
  | .error err => .ok (tx, { err := some err }, false)
  | .ok stmt => tx.run stmt

end IdealTx

namespace Ideal

def begin (d : Ideal) : IdealTx := ⟨d.ver, d.com, fun _ => none⟩

/-- Somebody else committed a table the transaction changed. -/
def Conflict (d : Ideal) (tx : IdealTx) : Prop :=
  ∃ name, tx.work name ≠ none ∧
    (d.com name).map TabVer.verId ≠ (tx.seen name).map TabVer.verId

/-- A commit without conflict. -/
def install (d : Ideal) (tx : IdealTx) : Ideal :=
  { d with ver := d.ver + 1, com := Db.override tx.work d.com (d.ver + 1) }

open Classical in
noncomputable def commit (d : Ideal) (tx : IdealTx) : Ideal × Bool :=
  if d.Conflict tx then (d, false) else (d.install tx, true)

/-- A SELECT on the content a snapshot was taken of. -/
def read (d : Ideal) (snap : Nat) (seen : Tables) (sql : Bytes) : Except Fault (DbRes × Bool) :=
  match parseSql d.maxSql sql with
  | .error err => .ok ({ err := some err }, false)
  | .ok stmt =>
    let res : DbRes := {}
    if stmt.type ≠ .select then .ok (res.fail .badSql "read path accepts SELECT only", false)
    else
      match seen stmt.tableName.bytes with
      | none => .ok (res.fail .badSql "unknown table", false)
      | some tab => do
        let (_, res, ok) ← runOn tab stmt snap
        return (res, ok)

/-- A write statement that commits at once. -/
def write (d : Ideal) (stmt : Statement) : Except Fault (Ideal × DbRes × Bool) :=
  let name := stmt.tableName.bytes
  let res : DbRes := {}
  match d.com name with
  | none => .ok (d, res.fail .badSql "unknown table", false)
  | some base =>
    match base.tabClone with
    | none => .ok (d, res.fail .oom "out of memory", false)
    | some tab => do
      let (tab, res, ok) ← tab.execStmt stmt res
      if ok then return (d.install (d.begin.put name tab), res, true)
      else return (d, res, false)

def exec (d : Ideal) (sql : Bytes) : Except Fault (Ideal × DbRes × Bool) :=
  match parseSql d.maxSql sql with
  | .error err => .ok (d, { err := some err }, false)
  | .ok stmt =>
    if stmt.type = .select then do
      let (res, ok) ← d.read d.ver d.com sql
      return (d, res, ok)
    else d.write stmt

def batchLoop (maxSql : Int) : IdealTx → List Bytes → Except Fault (IdealTx × List DbRes × Bool)
  | tx, [] => .ok (tx, [], true)
  | tx, sql :: sqls => do
    let (tx, res, ok) ← tx.txdo maxSql sql
    if ok then
      let (tx, out, ok) ← batchLoop maxSql tx sqls
      return (tx, res :: out, ok)
    else
      let msg := (res.err.map (·.msg)).getD "query failed"
      return (tx, res.fail .txAbort msg :: sqls.map (fun _ => {}), false)

def batchEach : Ideal → List Bytes → Except Fault (Ideal × List DbRes)
  | d, [] => .ok (d, [])
  | d, sql :: sqls => do
    let (d, res, ok) ← d.exec sql
    let res := if !ok ∧ res.err = none then res.fail .badSql "query failed" else res
    let (d, out) ← batchEach d sqls
    return (d, res :: out)

/-- All statements in one transaction, or each one for itself. -/
def batch (d : Ideal) (sqls : List Bytes) (tx : Bool) :
    Except Fault (Ideal × List DbRes × Bool) :=
  if sqls = [] then .ok (d, [], true)
  else if d.maxQry < sqls.length then .ok (d, [], false)
  else if tx then do
    let (tx, out, ok) ← batchLoop d.maxSql d.begin sqls
    if ok then return (d.install tx, out, true) else return (d, out, false)
  else do
    let (d, out) ← d.batchEach sqls
    return (d, out, true)

end Ideal

namespace Db

/-- The abstract content of the store. -/
def abs (db : Db) : Ideal := ⟨db.mv.curVer, db.com, db.maxSql, db.maxQry⟩

def absTx (db : Db) (tx : DbTx) : IdealTx := ⟨tx.snapId, db.seen tx.snapId, db.txWork tx⟩

end Db

end MiniDbms
