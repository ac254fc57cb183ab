import Mathlib.Data.List.Nodup
import Mathlib.Data.List.Range
import Mathlib.Data.List.Perm.Subperm

/-!
# Lists threaded through an array

A list of slots of an array, each with the index of the next one.  The list is the
meaning of a start index; pushing and unlinking change one or two links.
-/

namespace MiniDbms

/-- The slots from `start` on, following `next`. -/
def Linked (next : Nat → Option Nat) : Option Nat → List Nat → Prop
  | start, [] => start = none
  | start, i :: l => start = some i ∧ Linked next (next i) l

namespace Linked

variable {next next' : Nat → Option Nat} {start : Option Nat} {l : List Nat}

theorem congr (h : Linked next start l) (hsame : ∀ i ∈ l, next' i = next i) :
    Linked next' start l := by
  induction l generalizing start with
  | nil => exact h
  | cons i l ih =>
      refine ⟨h.1, ?_⟩
      rw [hsame i List.mem_cons_self]
      exact ih h.2 fun j hj => hsame j (List.mem_cons_of_mem _ hj)

theorem push {i : Nat} (h : Linked next start l) (hi : next' i = start)
    (hsame : ∀ j ∈ l, next' j = next j) : Linked next' (some i) (i :: l) :=
  ⟨rfl, by rw [hi]; exact h.congr hsame⟩

theorem unlink {front : List Nat} {p i : Nat} (h : Linked next start (front ++ p :: i :: l))
    (hnodup : (front ++ p :: i :: l).Nodup) (hp : next' p = next i)
    (hsame : ∀ j ∈ front ++ l, next' j = next j) : Linked next' start (front ++ p :: l) := by
  induction front generalizing start with
  | nil =>
      obtain ⟨hstart, hi, hrest⟩ := h
      refine ⟨hstart, ?_⟩
      rw [hp]
      exact hrest.congr fun j hj => hsame j hj
  | cons a front ih =>
      refine ⟨h.1, ?_⟩
      rw [hsame a List.mem_cons_self]
      exact ih h.2 (List.nodup_cons.1 hnodup).2 fun j hj => hsame j (List.mem_cons_of_mem _ hj)

theorem unlink_first {i : Nat} (h : Linked next start (i :: l))
    (hsame : ∀ j ∈ l, next' j = next j) : Linked next' (next i) l := h.2.congr hsame

theorem length_le {n : Nat} (hnodup : l.Nodup) (hlt : ∀ i ∈ l, i < n) : l.length ≤ n := by
  have hsub : l.Subperm (List.range n) :=
    List.subperm_of_subset hnodup fun i hi => List.mem_range.2 (hlt i hi)
  simpa using hsub.length_le

end Linked

end MiniDbms
