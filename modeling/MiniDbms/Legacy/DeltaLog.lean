import MiniDbms.Legacy.Text

/-!
# The delta log

UPDATE and DELETE append their effect to `<table>.delta` in batches, and
`replay_delta_log` reads the log back when the table is loaded.  What applying a
batch does to the table is a parameter of the replay.
-/

namespace MiniDbms.Legacy

def DELTA_LINE_SIZE : Nat := RECORD_SIZE + 128

inductive DeltaOp
  | update (id : Int) (row : Bytes)
  | delete (id : Int)
deriving DecidableEq

/-! ## Writing -/

/-- The line that is written for an operation. -/
def DeltaOp.text : DeltaOp → Bytes
  | .update id row => str "U\t" ++ printL id ++ 9 :: row
  | .delete id => str "D\t" ++ printL id

/-- The lines from `begin_delta_batch` to `close_delta_batch`. -/
def batchLines (ops : List DeltaOp) : List Bytes :=
  str "B" :: (ops.map DeltaOp.text ++ [str "E"])

def batchText (ops : List DeltaOp) : Bytes := unlines (batchLines ops)

/-! ## Replaying -/

/-- The text behind a `U` or `D` and its tab. -/
def opBody (kind : UInt8) : Bytes → Option Bytes
  | c :: 9 :: rest => if c = kind then some rest else none
  | _ => none

/-- An operation line; a line that is none is passed over. -/
def parseOp (line : Bytes) : Option DeltaOp :=
  match opBody 85 line with
  | some text =>
    match text.dropWhile (· != 9) with
    | [] => none
    | _ :: row => (parseLongValue (text.takeWhile (· != 9))).map fun id => .update id row
  | none => (opBody 68 line).bind fun text => (parseLongValue text).map .delete

section Replay

variable {σ : Type} (apply : σ → List DeltaOp → Option σ)

/-- The table, and the operations of the open batch if there is one. -/
abbrev ReplayState (σ : Type) := σ × Option (List DeltaOp)

/-- One round of the loop of `replay_delta_log`, on a line without its end. -/
def replayLine : ReplayState σ → Bytes → Option (ReplayState σ)
  | (s, batch), line =>
    if line = str "B" then some (s, some [])
    else if line = str "E" then
      match batch with
      | none => some (s, none)
      | some ops => (apply s ops).map (·, none)
    else
      match batch, parseOp line with
      | some ops, some op => some (s, some (ops ++ [op]))
      | _, _ => some (s, batch)

def replayRound (state : ReplayState σ) (line : Bytes) : Option (ReplayState σ) :=
  (chomp DELTA_LINE_SIZE line).bind (replayLine apply state)

/-- `replay_delta_log` on the bytes of the log. -/
def replayDeltaLog (file : Bytes) (s : σ) : Option σ :=
  ((readLines DELTA_LINE_SIZE file).foldlM (replayRound apply) (s, none)).map Prod.fst

end Replay

end MiniDbms.Legacy
