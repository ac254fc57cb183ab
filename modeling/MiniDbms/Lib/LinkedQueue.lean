import MiniDbms.Lib.Heap
import Mathlib.Data.List.Nodup

/-!
# Linked queues

A queue of cells that are linked by `next`, with pointers to its first and its
last cell.  A cell that was taken out stays allocated until it is released.
-/

namespace MiniDbms

structure Cell (α : Type) where
  val : α
  next : Option Nat

structure LinkedQueue (α : Type) where
  heap : Heap (Cell α)
  head : Option Nat
  tail : Option Nat

namespace LinkedQueue

variable {α : Type}

def empty : LinkedQueue α := ⟨Heap.empty, none, none⟩

/-- A new cell behind the last one; no result when the last one was released. -/
def push (q : LinkedQueue α) (v : α) : Option (LinkedQueue α) :=
  let a := q.heap.next
  let heap := q.heap.alloc ⟨v, none⟩
  match q.tail with
  | none => some ⟨heap, some a, some a⟩
  | some t => (heap.get t).map fun last =>
      ⟨heap.set t { last with next := some a }, q.head, some a⟩

/-- Take the first cell out; no result when there is none or it was released. -/
def pop (q : LinkedQueue α) : Option (Nat × α × LinkedQueue α) :=
  q.head.bind fun a => (q.heap.get a).map fun cell =>
    (a, cell.val, ⟨q.heap, cell.next, if cell.next = none then none else q.tail⟩)

def free (q : LinkedQueue α) (a : Nat) : LinkedQueue α := { q with heap := q.heap.free a }

/-- The cells from `p` on, with their addresses. -/
def Chain (heap : Heap (Cell α)) : Option Nat → List (Nat × α) → Prop
  | p, [] => p = none
  | p, (a, v) :: cells => p = some a ∧ ∃ next, heap.get a = some ⟨v, next⟩ ∧ Chain heap next cells

/-- The queue holds `cells`; `out` are the cells that were taken and not released. -/
structure Holds (q : LinkedQueue α) (cells out : List (Nat × α)) : Prop where
  chain : Chain q.heap q.head cells
  tail : q.tail = (cells.getLast?).map Prod.fst
  live : ∀ c ∈ out, ∃ next, q.heap.get c.1 = some ⟨c.2, next⟩
  nodup : ((cells ++ out).map Prod.fst).Nodup

variable {q : LinkedQueue α} {heap heap' : Heap (Cell α)} {cells out : List (Nat × α)}

theorem Chain.congr : ∀ {cells : List (Nat × α)} {p : Option Nat}, Chain heap p cells →
    (∀ c ∈ cells, heap'.get c.1 = heap.get c.1) → Chain heap' p cells
  | [], _, h, _ => h
  | (a, v) :: cells, p, ⟨hp, next, hget, hrest⟩, hsame => by
      refine ⟨hp, next, ?_, hrest.congr fun c hc => hsame c (List.mem_cons_of_mem _ hc)⟩
      rw [hsame (a, v) List.mem_cons_self]
      exact hget

theorem Chain.live : ∀ {cells : List (Nat × α)} {p : Option Nat}, Chain heap p cells →
    ∀ c ∈ cells, ∃ next, heap.get c.1 = some ⟨c.2, next⟩
  | (a, v) :: cells, _, ⟨_, next, hget, hrest⟩, c, hc => by
      rcases List.mem_cons.1 hc with rfl | hc
      · exact ⟨next, hget⟩
      · exact hrest.live c hc

theorem Chain.head_none {p : Option Nat} (h : Chain heap p cells) : p = none ↔ cells = [] := by
  cases cells with
  | nil => simpa [Chain] using h
  | cons c cells => simp [h.1]

theorem Chain.snoc {a t : Nat} {v w : α} {last : Cell α} :
    ∀ {cells : List (Nat × α)} {p : Option Nat}, Chain heap p (cells ++ [(t, w)]) →
      ((cells ++ [(t, w)]).map Prod.fst).Nodup → heap.get t = some last →
      heap.get a = some ⟨v, none⟩ → a ∉ (cells ++ [(t, w)]).map Prod.fst →
      Chain (heap.set t { last with next := some a }) p (cells ++ [(t, w), (a, v)])
  | [], p, ⟨hp, next, hget, hnone⟩, _, hlast, hnew, hfresh => by
      rw [hget] at hlast
      cases hlast
      have hne : a ≠ t := by simpa using hfresh
      refine ⟨hp, some a, Heap.get_set_self _ hget, rfl, none, ?_, rfl⟩
      rw [Heap.get_set_of_ne _ _ hne, hnew]
  | (b, u) :: cells, p, ⟨hp, next, hget, hrest⟩, hnodup, hlast, hnew, hfresh => by
      rw [List.cons_append, List.map_cons, List.nodup_cons] at hnodup
      rw [List.cons_append, List.map_cons, List.mem_cons, not_or] at hfresh
      have hbt : b ≠ t := by
        rintro rfl
        exact hnodup.1 (by simp)
      refine ⟨hp, next, ?_, hrest.snoc hnodup.2 hlast hnew hfresh.2⟩
      rw [Heap.get_set_of_ne _ _ hbt, hget]

theorem holds_empty : (empty : LinkedQueue α).Holds [] [] :=
  ⟨rfl, rfl, by simp, by simp⟩

theorem Holds.head_none (h : q.Holds cells out) : q.head = none ↔ cells = [] := h.chain.head_none

theorem Holds.perm {out' : List (Nat × α)} (h : q.Holds cells out) (hp : out.Perm out') :
    q.Holds cells out' where
  chain := h.chain
  tail := h.tail
  live := fun c hc => h.live c (hp.mem_iff.2 hc)
  nodup := ((hp.append_left cells).map Prod.fst).nodup_iff.1 h.nodup

theorem Holds.get (h : q.Holds cells out) {c : Nat × α} (hc : c ∈ cells ++ out) :
    ∃ next, q.heap.get c.1 = some ⟨c.2, next⟩ := by
  rcases List.mem_append.1 hc with hc | hc
  · exact h.chain.live c hc
  · exact h.live c hc

theorem Holds.fresh (h : q.Holds cells out) : q.heap.next ∉ (cells ++ out).map Prod.fst := by
  intro hmem
  obtain ⟨c, hc, heq⟩ := List.mem_map.1 hmem
  obtain ⟨next, hget⟩ := h.get hc
  have hlt := Heap.lt_next_of_get hget
  omega

/-- **Push** adds one cell at the end. -/
theorem Holds.push (h : q.Holds cells out) (v : α) :
    ∃ q', q.push v = some q' ∧ q'.Holds (cells ++ [(q.heap.next, v)]) out := by
  have hfresh := h.fresh
  have hold : ∀ c ∈ cells ++ out, (q.heap.alloc ⟨v, none⟩).get c.1 = q.heap.get c.1 := by
    intro c hc
    obtain ⟨next, hget⟩ := h.get hc
    rw [Heap.get_alloc_of_get _ hget, hget]
  have hnodup : ((cells ++ [(q.heap.next, v)] ++ out).map Prod.fst).Nodup := by
    have hp : (cells ++ [(q.heap.next, v)] ++ out).Perm ((q.heap.next, v) :: (cells ++ out)) := by
      rw [List.append_assoc]
      exact List.perm_middle
    refine (hp.map Prod.fst).nodup_iff.2 ?_
    rw [List.map_cons]
    exact List.nodup_cons.2 ⟨hfresh, h.nodup⟩
  have hchain := h.chain.congr fun c hc => hold c (List.mem_append_left _ hc)
  have hlive : ∀ c ∈ out, ∃ next, (q.heap.alloc ⟨v, none⟩).get c.1 = some ⟨c.2, next⟩ := by
    intro c hc
    rw [hold c (List.mem_append_right _ hc)]
    exact h.live c hc
  unfold LinkedQueue.push
  rcases List.eq_nil_or_concat' cells with rfl | ⟨cells, ⟨t, w⟩, rfl⟩
  · have htail : q.tail = none := h.tail
    rw [htail]
    refine ⟨_, rfl, ⟨rfl, none, Heap.get_alloc_next _ _, rfl⟩, rfl, hlive, hnodup⟩
  · have htail : q.tail = some t := by simpa using h.tail
    obtain ⟨next, hlast⟩ := hchain.live (t, w) (by simp)
    have hfresh' : q.heap.next ∉ (cells ++ [(t, w)]).map Prod.fst := fun hmem =>
      hfresh (by
        rw [List.map_append]
        exact List.mem_append_left _ hmem)
    have hkeys : ((cells ++ [(t, w)]).map Prod.fst).Nodup := by
      have := h.nodup
      rw [List.map_append] at this
      exact (List.nodup_append.1 this).1
    have hsnoc := hchain.snoc hkeys hlast (Heap.get_alloc_next _ _) hfresh'
    rw [htail]
    dsimp only at hlast ⊢
    rw [hlast]
    refine ⟨_, rfl, ?_, by simp, ?_, hnodup⟩
    · rw [List.append_assoc]
      exact hsnoc
    · intro c hc
      have hne : c.1 ≠ t := by
        have := h.nodup
        rw [List.map_append] at this
        exact fun heq => (List.nodup_append.1 this).2.2 t (by simp) c.1 (List.mem_map_of_mem hc)
          heq.symm
      rw [Heap.get_set_of_ne _ _ hne]
      exact hlive c hc

/-- **Pop** takes the first cell out. -/
theorem Holds.pop {a : Nat} {v : α} (h : q.Holds ((a, v) :: cells) out) :
    ∃ q', q.pop = some (a, v, q') ∧ q'.Holds cells ((a, v) :: out) ∧ q'.heap = q.heap := by
  obtain ⟨hhead, next, hget, hrest⟩ := h.chain
  refine ⟨⟨q.heap, next, if next = none then none else q.tail⟩, ?_, ⟨hrest, ?_, ?_, ?_⟩, rfl⟩
  · unfold LinkedQueue.pop
    rw [hhead, Option.bind_some, hget]
    rfl
  · dsimp only
    split
    · rename_i hnone
      rw [hrest.head_none.1 hnone]
      rfl
    · rename_i hsome
      rw [h.tail]
      cases cells with
      | nil => exact absurd (hrest.head_none.2 rfl) hsome
      | cons c cells => rw [List.getLast?_cons_cons]
  · intro c hc
    rcases List.mem_cons.1 hc with rfl | hc
    · exact ⟨next, hget⟩
    · exact h.live c hc
  · have hp : (cells ++ (a, v) :: out).Perm ((a, v) :: cells ++ out) := List.perm_middle
    exact (hp.map Prod.fst).nodup_iff.2 h.nodup

theorem Holds.free {a : Nat} {v : α} (h : q.Holds cells ((a, v) :: out)) :
    (q.free a).Holds cells out := by
  have hp : (cells ++ (a, v) :: out).Perm ((a, v) :: (cells ++ out)) := List.perm_middle
  have hnodup := (hp.map Prod.fst).nodup_iff.1 h.nodup
  rw [List.map_cons, List.nodup_cons] at hnodup
  have hsame : ∀ c ∈ cells ++ out, (q.heap.free a).get c.1 = q.heap.get c.1 := by
    intro c hc
    exact Heap.get_free_of_ne _ fun heq => hnodup.1 (List.mem_map.2 ⟨c, hc, heq⟩)
  refine ⟨h.chain.congr fun c hc => hsame c (List.mem_append_left _ hc), h.tail, ?_, hnodup.2⟩
  intro c hc
  obtain ⟨next, hget⟩ := h.live c (List.mem_cons_of_mem _ hc)
  exact ⟨next, (hsame c (List.mem_append_right _ hc)).trans hget⟩

end LinkedQueue

end MiniDbms
