import Mathlib.Data.List.Infix

/-!
# A stream that arrives in chunks

The peer's bytes are a list of chunks.  A read takes what is left of the first one,
as far as there is room, and nothing once the stream has ended.
-/

namespace MiniDbms

namespace Chunks

variable {α : Type}

/-- What one read returns, and the chunks that are still to come. -/
def recv (room : Nat) : List (List α) → List α × List (List α)
  | [] => ([], [])
  | chunk :: rest =>
    if chunk.length ≤ room then (chunk, rest) else (chunk.take room, chunk.drop room :: rest)

/-- No chunk is empty: an empty read means the end of the stream. -/
def Nonempty (chunks : List (List α)) : Prop := ∀ chunk ∈ chunks, chunk ≠ []

variable {chunks rest : List (List α)} {room : Nat}

theorem recv_append (chunks : List (List α)) (room : Nat) :
    (recv room chunks).1 ++ (recv room chunks).2.flatten = chunks.flatten := by
  cases chunks with
  | nil => rfl
  | cons chunk rest =>
      rw [recv]
      by_cases hroom : chunk.length ≤ room
      · rw [if_pos hroom]
        rfl
      · rw [if_neg hroom, List.flatten_cons, List.flatten_cons, ← List.append_assoc,
          List.take_append_drop]

theorem Nonempty.recv (h : Nonempty chunks) : Nonempty (recv room chunks).2 := by
  cases chunks with
  | nil => exact h
  | cons chunk rest =>
      have hrest : Nonempty rest := fun c hc => h c (List.mem_cons_of_mem chunk hc)
      rw [Chunks.recv]
      by_cases hroom : chunk.length ≤ room
      · rw [if_pos hroom]
        exact hrest
      · rw [if_neg hroom]
        intro c hc
        obtain rfl | hc := List.mem_cons.1 hc
        · intro hnil
          apply hroom
          exact List.drop_eq_nil_iff.1 hnil
        · exact hrest c hc

theorem Nonempty.recv_eq_nil (h : Nonempty chunks) (hroom : 0 < room)
    (hnil : (Chunks.recv room chunks).1 = []) : chunks.flatten = [] := by
  cases chunks with
  | nil => rfl
  | cons chunk rest =>
      have hchunk : chunk ≠ [] := h chunk List.mem_cons_self
      rw [Chunks.recv] at hnil
      by_cases hfit : chunk.length ≤ room
      · rw [if_pos hfit] at hnil
        exact absurd hnil hchunk
      · rw [if_neg hfit] at hnil
        obtain hzero | hchunk' := List.take_eq_nil_iff.1 hnil
        · omega
        · exact absurd hchunk' hchunk

theorem recv_suffix (hsuffix : rest <:+ chunks) (hlt : rest.flatten.length < chunks.flatten.length) :
    rest <:+ (recv room chunks).2 := by
  obtain ⟨front, rfl⟩ := hsuffix
  cases front with
  | nil => exact absurd hlt (lt_irrefl _)
  | cons chunk front =>
      rw [List.cons_append, recv]
      by_cases hroom : chunk.length ≤ room
      · rw [if_pos hroom]
        exact List.suffix_append front rest
      · rw [if_neg hroom]
        exact (List.suffix_append front rest).trans (List.suffix_cons _ _)

theorem Nonempty.eq_of_suffix (h : Nonempty chunks) (hsuffix : rest <:+ chunks)
    (hlen : chunks.flatten.length ≤ rest.flatten.length) : chunks = rest := by
  obtain ⟨front, rfl⟩ := hsuffix
  cases front with
  | nil => rfl
  | cons chunk front =>
      have hchunk : 0 < chunk.length := List.length_pos_iff.2 (h chunk List.mem_cons_self)
      rw [List.cons_append, List.flatten_cons, List.flatten_append, List.length_append,
        List.length_append] at hlen
      omega

end Chunks

end MiniDbms
