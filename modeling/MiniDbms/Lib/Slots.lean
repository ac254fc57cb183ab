import Mathlib.Data.List.Basic

/-!
# Arrays of pointers with a live front

A C array of `size` pointers whose first `count` entries are in use and whose other
entries are NULL, and what `memmove`, `memcpy` and `memset` do to it.
-/

namespace MiniDbms.Slots

variable {β : Type}

/-- `memmove(&a[dst], &a[src], n)`. -/
def memmove (a : List (Option β)) (dst src n : Nat) : List (Option β) :=
  a.take dst ++ (a.drop src).take n ++ a.drop (dst + n)

/-- `memset(&a[i], 0, n)`. -/
def memzero (a : List (Option β)) (i n : Nat) : List (Option β) :=
  a.take i ++ List.replicate n none ++ a.drop (i + n)

/-- `memcpy(b, &a[src], n)` into a zeroed array `b` of the given size. -/
def memcpyZeroed (size : Nat) (a : List (Option β)) (src n : Nat) : List (Option β) :=
  (a.drop src).take n ++ List.replicate (size - n) none

/-- The array with these entries in use. -/
def pad (size : Nat) (l : List β) : List (Option β) :=
  l.map some ++ List.replicate (size - l.length) none

variable {size : Nat} {l : List β}

theorem getElem?_pad (i : Nat) :
    (pad size l)[i]? =
      if i < l.length then some l[i]? else if i < size then some none else none := by
  unfold pad
  by_cases hi : i < l.length
  · rw [if_pos hi, List.getElem?_append_left (by simpa using hi), List.getElem?_map,
      List.getElem?_eq_getElem hi]
    rfl
  · rw [if_neg hi, List.getElem?_append_right (by simpa using hi), List.getElem?_replicate,
      List.length_map]
    split_ifs <;> first | rfl | omega

theorem take_length_pad : (pad size l).take l.length = l.map some := by
  unfold pad
  rw [List.take_append_of_le_length (by simp), List.take_of_length_le (by simp)]

theorem pad_append (A B : List β) :
    pad size (A ++ B) =
      A.map some ++ B.map some ++ List.replicate (size - (A.length + B.length)) none := by
  simp [pad]

theorem memmove_up (A B N : List (Option β)) (y z : Option β) :
    (memmove (A ++ B ++ z :: N) (A.length + 1) A.length B.length).set A.length y =
      A ++ y :: B ++ N := by
  have htake : (A ++ B ++ z :: N).take (A.length + 1) = A ++ [(B ++ [z]).head (by simp)] := by
    rw [List.append_assoc, List.take_length_add_append]
    cases B <;> rfl
  have hmid : ((A ++ B ++ z :: N).drop A.length).take B.length = B := by
    rw [List.append_assoc, List.drop_left, List.take_left]
  have hdrop : (A ++ B ++ z :: N).drop (A.length + 1 + B.length) = N := by
    have hlen : A.length + 1 + B.length = (A ++ B).length + 1 := by
      simp only [List.length_append]
      omega
    rw [hlen, List.drop_length_add_append]
    rfl
  rw [memmove, htake, hmid, hdrop]
  simp

theorem memmove_down (A B N : List (Option β)) (z : Option β) :
    (memmove (A ++ z :: B ++ N) A.length (A.length + 1) B.length).set (A.length + B.length)
      none = A ++ B ++ none :: N := by
  have htake : (A ++ z :: B ++ N).take A.length = A := by
    rw [List.append_assoc, List.take_left]
  have hmid : ((A ++ z :: B ++ N).drop (A.length + 1)).take B.length = B := by
    rw [List.append_assoc, List.drop_length_add_append, List.cons_append, List.drop_succ_cons,
      List.drop_zero, List.take_left]
  have hdrop : (A ++ z :: B ++ N).drop (A.length + B.length) =
      (z :: B).getLast (by simp) :: N := by
    rw [List.append_assoc, List.drop_length_add_append]
    nth_rewrite 1 [← List.dropLast_concat_getLast (List.cons_ne_nil z B)]
    rw [List.append_assoc, List.drop_left' (by simp)]
    rfl
  rw [memmove, htake, hmid, hdrop, ← List.length_append]
  simp

/-- Shifting the back by one and writing into the gap is an insertion. -/
theorem pad_insert {i : Nat} (hi : i ≤ l.length) (hfit : l.length < size) (x : β) :
    (memmove (pad size l) (i + 1) i (l.length - i)).set i (some x) =
      pad size (l.take i ++ x :: l.drop i) := by
  have hA : ((l.take i).map some : List (Option β)).length = i := by simp [hi]
  have hB : ((l.drop i).map some : List (Option β)).length = l.length - i := by simp
  obtain ⟨n, hn⟩ : ∃ n, size - l.length = n + 1 := ⟨size - l.length - 1, by omega⟩
  have hpad : pad size l =
      (l.take i).map some ++ (l.drop i).map some ++ none :: List.replicate n none := by
    rw [pad, hn, ← List.map_append, List.take_append_drop, List.replicate_succ]
  have hup := memmove_up ((l.take i).map some) ((l.drop i).map some) (List.replicate n none)
    (some x) none
  rw [hA, hB, ← hpad] at hup
  rw [hup, pad_append]
  have hlen : size - ((l.take i).length + (x :: l.drop i).length) = n := by
    simp only [List.length_take, List.length_cons, List.length_drop]
    omega
  rw [hlen, List.map_cons]

theorem pad_take {m : Nat} (hm : m ≤ l.length) (hfit : l.length ≤ size) :
    memzero (pad size l) m (l.length - m) = pad size (l.take m) := by
  have htake : (pad size l).take m = (l.take m).map some := by
    rw [pad, List.take_append_of_le_length (by simpa using hm), List.map_take]
  have hdrop : (pad size l).drop (m + (l.length - m)) =
      List.replicate (size - l.length) none := by
    rw [pad, Nat.add_sub_cancel' hm, List.drop_left' (by simp)]
  rw [memzero, htake, hdrop, List.append_assoc, List.replicate_append_replicate, pad,
    List.length_take_of_le hm]
  congr 2
  omega

theorem pad_drop {m : Nat} (hm : m ≤ l.length) :
    memcpyZeroed size (pad size l) m (l.length - m) = pad size (l.drop m) := by
  unfold memcpyZeroed pad
  have hlen : (l.map some : List (Option β)).length = l.length := List.length_map _
  rw [List.drop_append_of_le_length (by omega), List.take_append_of_le_length (by simp),
    List.take_of_length_le (by simp), List.map_drop, List.length_drop]

/-- Closing the gap and clearing the last entry is a deletion. -/
theorem pad_eraseIdx {i : Nat} (hi : i < l.length) (hfit : l.length ≤ size) :
    (memmove (pad size l) i (i + 1) (l.length - i - 1)).set (l.length - 1) none =
      pad size (l.eraseIdx i) := by
  have hA : ((l.take i).map some : List (Option β)).length = i := by
    simp only [List.length_map, List.length_take]
    omega
  have hB : ((l.drop (i + 1)).map some : List (Option β)).length = l.length - i - 1 := by
    simp only [List.length_map, List.length_drop]
    omega
  have hcut : l = l.take i ++ l[i] :: l.drop (i + 1) := by
    rw [← List.drop_eq_getElem_cons hi, List.take_append_drop]
  have hpad : pad size l = (l.take i).map some ++ some l[i] :: (l.drop (i + 1)).map some ++
      List.replicate (size - l.length) none := by
    rw [pad]
    congr 1
    nth_rewrite 1 [hcut]
    rw [List.map_append, List.map_cons]
  have hdown := memmove_down ((l.take i).map some) ((l.drop (i + 1)).map some)
    (List.replicate (size - l.length) none) (some l[i])
  rw [hA, hB, ← hpad, show i + (l.length - i - 1) = l.length - 1 by omega] at hdown
  rw [hdown, List.eraseIdx_eq_take_drop_succ, pad_append, ← List.replicate_succ]
  congr 2
  simp only [List.length_take, List.length_drop]
  omega

end MiniDbms.Slots
