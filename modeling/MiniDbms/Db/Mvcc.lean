import Mathlib.Data.List.Basic

/-!
# The version counter and the live snapshots

`mvcc.c`.  The counter and the ids are natural numbers: they grow by one with
every commit.
-/

namespace MiniDbms

structure Mvcc where
  curVer : Nat
  snaps : List Nat
deriving DecidableEq

structure MvStat where
  txLive : Nat
  snapMin : Nat
  verNow : Nat
  gcWait : Nat
deriving DecidableEq

namespace Mvcc

def mvNew : Mvcc := ⟨1, []⟩

/-- The id of the snapshot `mv_snap` returns. -/
def snapId (mv : Mvcc) : Nat := mv.curVer

def mvSnap (mv : Mvcc) : Mvcc := { mv with snaps := mv.snaps ++ [mv.curVer] }

def mvBump (mv : Mvcc) : Mvcc := { mv with curVer := mv.curVer + 1 }

/-- `mv_gc`: one occurrence of the id goes. -/
def mvGc (mv : Mvcc) (snap : Nat) : Mvcc :=
  if snap = 0 then mv else { mv with snaps := mv.snaps.erase snap }

def snapMin (mv : Mvcc) : Nat :=
  match mv.snaps with
  | [] => mv.curVer
  | s :: ss => ss.foldl min s

def mvStat (mv : Mvcc) : MvStat where
  txLive := mv.snaps.length
  snapMin := mv.snapMin
  verNow := mv.curVer
  gcWait := if 0 < mv.snaps.length then mv.curVer - mv.snapMin else 0

end Mvcc

end MiniDbms
