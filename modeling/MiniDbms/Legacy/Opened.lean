import MiniDbms.Legacy.Where

/-!
# Open tables

A table in memory together with its delta log, which UPDATE and DELETE append to.  After
every `DELTA_COMPACT_CHECK_INTERVAL` of them a long log is compacted: the table is written
to a new CSV file and loaded from it again, with other slots.
-/

namespace MiniDbms.Legacy

def DELTA_COMPACT_BYTES : Nat := 256 * 1024 * 1024
def DELTA_COMPACT_CHECK_INTERVAL : Nat := 4096

/-- The delta log of a table, `none` when there is no file, and what the table counts. -/
structure DeltaFile where
  text : Option Bytes := none
  batchOpen : Bool := false
  opsSinceCompactCheck : Nat := 0
  bytesSinceCompact : Nat := 0
deriving DecidableEq

namespace DeltaFile

variable (log : DeltaFile)

/-- `fprintf` of a line, counted by `track_delta_write`. -/
def writeLine (line : Bytes) : DeltaFile :=
  { log with
    text := some (log.text.getD [] ++ line ++ [10])
    bytesSinceCompact := log.bytesSinceCompact + (line.length + 1) }

/-- `begin_delta_batch`. -/
def beginBatch : DeltaFile :=
  if log.batchOpen then log else { log.writeLine (str "B") with batchOpen := true }

/-- `close_delta_batch`. -/
def closeBatch : DeltaFile :=
  if log.batchOpen then { log.writeLine (str "E") with batchOpen := false } else log

/-- `delta_log_size` of a log whose batch is closed. -/
def size : Nat := (log.text.getD []).length

/-- One operation in an open batch. -/
def appendOp (op : DeltaOp) : DeltaFile := log.beginBatch.writeLine op.text

end DeltaFile

/-- A table and its delta log. -/
structure Opened where
  table : TableCache
  log : DeltaFile := {}

namespace Opened

variable (st : Opened)

/-- Whether the delta log is thrown away when the table is loaded. -/
def staleLog (file : Bytes) : Bool :=
  match scanTable true file with
  | some scan => scan.tc.activeCount == 0 && scan.tc.tail == []
  | none => false

/-- `reload_table_cache` from a new file. -/
def reload (file : Bytes) : Option Opened :=
  let text := st.log.closeBatch.text
  (loadTableContents file text).map fun tc =>
    { table := tc, log := { text := if staleLog file then none else text } }

/-- `rewrite_file`: the table, unless the new file cannot be loaded, and whether it returns 1. -/
def rewriteFile : Option Opened × Bool :=
  match st.table.compactText with
  | none => (some { st with table := st.table.reopened }, false)
  | some text =>
    match TableCache.rewriteFile text with
    | none => (none, false)
    | some tc => (some { table := tc }, true)

/-- `maybe_compact_delta_log`. -/
def maybeCompactDeltaLog : Option Opened × Bool :=
  if st.table.uncachedStart.isSome then (some st, true)
  else
    let ops := st.log.opsSinceCompactCheck + 1
    if ops < DELTA_COMPACT_CHECK_INTERVAL then
      (some { st with log := { st.log with opsSinceCompactCheck := ops } }, true)
    else
      let log := { st.log with opsSinceCompactCheck := 0 }
      if log.bytesSinceCompact < DELTA_COMPACT_BYTES then (some { st with log := log }, true)
      else if log.closeBatch.size < DELTA_COMPACT_BYTES then
        (some { st with log := log.closeBatch }, true)
      else ({ st with log := log.closeBatch } : Opened).rewriteFile

end Opened

end MiniDbms.Legacy
