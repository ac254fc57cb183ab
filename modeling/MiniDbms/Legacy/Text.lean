import MiniDbms.Db.Text
import MiniDbms.Lib.Lists

/-!
# Lines, numbers and fields of the table files

`fgets` and the value parsers of `executor.c`.
-/

namespace MiniDbms.Legacy

/-- One `fgets` into `size` bytes from a file that is not at its end. -/
def fgets (size : Nat) (file : Bytes) : Bytes × Bytes :=
  let body := (file.take (size - 1)).takeWhile (· != 10)
  if body.length < size - 1 then (file.take (body.length + 1), file.drop (body.length + 1))
  else (body, file.drop body.length)

/-- The lines that a loop over `fgets` reads, each with its line feed. -/
def readLines (size : Nat) (file : Bytes) : List Bytes :=
  if file = [] ∨ size ≤ 1 then []
  else (fgets size file).1 :: readLines size (fgets size file).2
termination_by file.length
decreasing_by
  rename_i hend
  have hpos : 0 < file.length := List.length_pos_iff.2 fun hnil => hend (Or.inl hnil)
  unfold fgets
  simp only
  split
  · rw [List.length_drop]
    omega
  · rw [List.length_drop]
    omega

def isLineEnd (c : UInt8) : Bool := c == 10 || c == 13

/-- A line buffer cut at `strpbrk(line, "\r\n")`; `none` where the buffer was full
before the line ended. -/
def chomp (size : Nat) (line : Bytes) : Option Bytes :=
  if (cstr line).all (!isLineEnd ·) ∧ (cstr line).length = size - 1 then none
  else some ((cstr line).takeWhile (!isLineEnd ·))

/-- `parse_long_value`; `strtol` saturates. -/
def parseLongValue (value : Bytes) : Option Int :=
  let buf := normV 256 (cstr value)
  if buf = [] ∨ buf = str "NULL" then none
  else
    let (negative, digits) := takeSign (buf.dropWhile isSpace)
    if digits ≠ [] ∧ digits.all isDigit then
      some (max LONG_MIN (min LONG_MAX
        (if negative then -(digitsVal digits : Int) else digitsVal digits)))
    else none

/-! ## Files of short lines -/

/-- Lines, each with its line feed. -/
def unlines (lines : List Bytes) : Bytes := lines.flatMap (· ++ [10])

/-- A line that `fgets` reads whole into a buffer. -/
structure Fits (size : Nat) (line : Bytes) : Prop where
  short : line.length + 2 ≤ size
  noFeed : line.all (· != 10) = true

theorem fgets_line {size : Nat} {line rest : Bytes} (h : Fits size line) :
    fgets size (line ++ 10 :: rest) = (line ++ [10], rest) := by
  have hshort := h.short
  have hbody : ((line ++ 10 :: rest).take (size - 1)).takeWhile (· != 10) = line := by
    rw [List.take_append, List.take_of_length_le (by omega)]
    obtain ⟨k, hk⟩ : ∃ k, size - 1 - line.length = k + 1 := ⟨size - 2 - line.length, by omega⟩
    rw [hk, List.take_succ_cons]
    exact (span_append h.noFeed (by simp)).1
  unfold fgets
  simp only [hbody]
  rw [if_pos (by omega)]
  have htext : line ++ 10 :: rest = (line ++ [10]) ++ rest := by simp
  have hlen : line.length + 1 = (line ++ [10]).length := by simp
  rw [htext, hlen, List.take_left, List.drop_left]

theorem fgets_last {size : Nat} {line : Bytes} (h : Fits size line) :
    fgets size line = (line, []) := by
  have hshort := h.short
  have hbody : (line.take (size - 1)).takeWhile (· != 10) = line := by
    rw [List.take_of_length_le (by omega), List.takeWhile_eq_self_iff]
    exact fun c hc => List.all_eq_true.1 h.noFeed c hc
  unfold fgets
  simp only [hbody]
  rw [if_pos (by omega), List.take_of_length_le (by omega), List.drop_of_length_le (by omega)]

theorem readLines_nil (size : Nat) : readLines size [] = [] := by
  rw [readLines, if_pos (Or.inl rfl)]

theorem readLines_cons {size : Nat} {file : Bytes} (hfile : file ≠ []) (hsize : 1 < size) :
    readLines size file = (fgets size file).1 :: readLines size (fgets size file).2 := by
  conv_lhs => rw [readLines]
  rw [if_neg]
  rintro (h | h)
  · exact hfile h
  · omega

theorem readLines_unlines {size : Nat} {last : Bytes} (hlast : Fits size last) :
    ∀ {lines : List Bytes}, (∀ line ∈ lines, Fits size line) →
      readLines size (unlines lines ++ last) =
        lines.map (· ++ [10]) ++ (if last = [] then [] else [last])
  | [], _ => by
      have hsize : 1 < size := by
        have := hlast.short
        omega
      by_cases hnil : last = []
      · rw [hnil]
        exact readLines_nil size
      · have hfile : unlines [] ++ last = last := rfl
        rw [hfile, readLines_cons hnil hsize, fgets_last hlast, if_neg hnil]
        simp only
        rw [readLines_nil]
        rfl
  | line :: lines, h => by
      have hsize : 1 < size := by
        have := hlast.short
        omega
      have hfile : unlines (line :: lines) ++ last = line ++ 10 :: (unlines lines ++ last) := by
        simp [unlines]
      rw [hfile, readLines_cons (by simp) hsize, fgets_line (h line List.mem_cons_self)]
      simp only
      rw [readLines_unlines hlast fun l hl => h l (List.mem_cons_of_mem line hl)]
      rfl

theorem chomp_text {size : Nat} {text tail : Bytes}
    (htext : ∀ c ∈ text, c ≠ 0 ∧ isLineEnd c = false) (htail : ∀ c ∈ tail, isLineEnd c = true)
    (hlen : text.length + 2 ≤ size) : chomp size (text ++ tail) = some text := by
  have hnul : ∀ c ∈ text ++ tail, c ≠ 0 := by
    intro c hc
    obtain hc | hc := List.mem_append.1 hc
    · exact (htext c hc).1
    · rintro rfl
      exact absurd (htail 0 hc) (by decide)
  have hall : text.all (!isLineEnd ·) = true := by
    rw [List.all_eq_true]
    intro c hc
    rw [(htext c hc).2]
    rfl
  have hbody : (text ++ tail).takeWhile (!isLineEnd ·) = text := by
    refine (span_append hall fun c hc => ?_).1
    rw [htail c (List.mem_of_mem_head? hc)]
    rfl
  unfold chomp
  rw [cstr_eq_self hnul, if_neg, hbody]
  rintro ⟨hnone, hfull⟩
  cases tail with
  | nil =>
      rw [List.append_nil] at hfull
      omega
  | cons c tail =>
      have hend := List.all_eq_true.1 hnone c (by simp)
      rw [htail c List.mem_cons_self] at hend
      exact absurd hend (by decide)

end MiniDbms.Legacy
