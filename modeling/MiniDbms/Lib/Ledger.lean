import Mathlib.Data.List.Perm.Basic
import Mathlib.Data.List.Nodup

/-!
# A ledger of allocated blocks

Blocks get fresh addresses.  Releasing a block that is not allocated, a double
`free` included, is a fault.
-/

namespace MiniDbms

structure Ledger where
  next : Nat
  live : List Nat
deriving DecidableEq

namespace Ledger

def empty : Ledger := ⟨0, []⟩

/-- The ledger after an allocation; the block is at `next`. -/
def alloc (led : Ledger) : Ledger := ⟨led.next + 1, led.next :: led.live⟩

def free (led : Ledger) (a : Nat) : Option Ledger :=
  if a ∈ led.live then some ⟨led.next, led.live.erase a⟩ else none

/-- No block is listed twice, and the next address is not in use. -/
structure Ok (led : Ledger) : Prop where
  nodup : led.live.Nodup
  fresh : ∀ a ∈ led.live, a < led.next

theorem empty_ok : empty.Ok := ⟨List.nodup_nil, by simp [empty]⟩

variable {led : Ledger}

theorem Ok.alloc (h : led.Ok) : led.alloc.Ok where
  nodup := List.nodup_cons.2 ⟨fun hmem => Nat.lt_irrefl _ (h.fresh _ hmem), h.nodup⟩
  fresh := by
    intro a ha
    rcases List.mem_cons.1 ha with rfl | ha
    · exact Nat.lt_succ_self _
    · exact Nat.lt_succ_of_lt (h.fresh a ha)

theorem free_of_perm (h : led.Ok) {a : Nat} {rest : List Nat} (hperm : led.live.Perm (a :: rest)) :
    ∃ led', led.free a = some led' ∧ led'.Ok ∧ led'.live.Perm rest := by
  have hmem : a ∈ led.live := hperm.mem_iff.2 List.mem_cons_self
  refine ⟨⟨led.next, led.live.erase a⟩, if_pos hmem, ⟨h.nodup.erase a, ?_⟩, ?_⟩
  · exact fun b hb => h.fresh b (List.mem_of_mem_erase hb)
  · exact (List.perm_cons a).1 ((List.perm_cons_erase hmem).symm.trans hperm)

end Ledger

end MiniDbms
