import MiniDbms.Db.Shape
import MiniDbms.Lib.Lists

/-!
# The lines of a table file

The line buffer holds `RECORD_SIZE - 1` bytes.  A longer line reaches `load_row` in pieces
of that length, as if it were several rows, and a blank one does not reach it at all.
-/

namespace MiniDbms

/-- A text that stays on its line. -/
def OneLine (s : Bytes) : Prop := ∀ c ∈ s, c ≠ 0 ∧ c ≠ 13 ∧ c ≠ newline

theorem OneLine.newline_not_mem {s : Bytes} (h : OneLine s) : newline ∉ s := fun hc =>
  (h newline hc).2.2 rfl

/-! ## `fgets` -/

theorem fgets_line : ∀ {room : Nat} {s rest : Bytes}, newline ∉ s →
    fgets room (s ++ newline :: rest) =
      if s.length < room then (s ++ [newline], rest)
      else (s.take room, s.drop room ++ newline :: rest)
  | 0, s, rest, _ => by simp [fgets]
  | room + 1, [], rest, _ => by simp [fgets]
  | room + 1, c :: s, rest, hs => by
      rw [List.mem_cons, not_or] at hs
      rw [List.cons_append, fgets, if_neg (Ne.symm hs.1)]
      simp only [fgets_line hs.2, List.length_cons, Nat.add_lt_add_iff_right]
      split <;> simp

theorem fgets_append : ∀ (room : Nat) (file : Bytes),
    (fgets room file).1 ++ (fgets room file).2 = file
  | 0, file => rfl
  | room + 1, [] => rfl
  | room + 1, c :: cs => by
      rw [fgets]
      split
      · rfl
      · exact congrArg (c :: ·) (fgets_append room cs)

theorem fgets_length : ∀ (room : Nat) (file : Bytes), (fgets room file).1.length ≤ room
  | 0, file => Nat.le_refl 0
  | room + 1, [] => Nat.zero_le _
  | room + 1, c :: cs => by
      rw [fgets]
      split
      · simp
      · exact Nat.succ_le_succ (fgets_length room cs)

theorem fgets_text : ∀ (room : Nat) (file : Bytes), ∃ s, newline ∉ s ∧
    ((fgets room file).1 = s ∨ (fgets room file).1 = s ++ [newline])
  | 0, file => ⟨[], List.not_mem_nil, Or.inl rfl⟩
  | room + 1, [] => ⟨[], List.not_mem_nil, Or.inl rfl⟩
  | room + 1, c :: cs => by
      rw [fgets]
      split
      · rename_i hc
        exact ⟨[], List.not_mem_nil, Or.inr (by rw [hc]; rfl)⟩
      · rename_i hc
        obtain ⟨s, hs, htext⟩ := fgets_text room cs
        refine ⟨c :: s, ?_, htext.imp (congrArg (c :: ·)) (congrArg (c :: ·))⟩
        rw [List.mem_cons, not_or]
        exact ⟨Ne.symm hc, hs⟩

theorem fgets_rest_lt {room : Nat} {file : Bytes} (hroom : 0 < room) (hfile : file ≠ []) :
    (fgets room file).2.length < file.length := by
  have hlen := congrArg List.length (fgets_append room file)
  have hpos : 0 < (fgets room file).1.length := by
    obtain ⟨room, rfl⟩ := Nat.exists_eq_succ_of_ne_zero hroom.ne'
    cases file with
    | nil => exact absurd rfl hfile
    | cons c cs =>
        rw [fgets]
        split <;> simp
  rw [List.length_append] at hlen
  omega

/-! ## The line loop -/

/-- The strings the line loop sees. -/
def fileLines (file : Bytes) : List Bytes := readLines file.length file

theorem readLines_fuel : ∀ (fuel fuel' : Nat) (file : Bytes), file.length ≤ fuel →
    file.length ≤ fuel' → readLines fuel file = readLines fuel' file
  | 0, 0, file, _, _ => rfl
  | 0, fuel' + 1, file, h, _ => by
      obtain rfl := List.eq_nil_of_length_eq_zero (Nat.le_zero.1 h)
      rfl
  | fuel + 1, 0, file, _, h => by
      obtain rfl := List.eq_nil_of_length_eq_zero (Nat.le_zero.1 h)
      rfl
  | fuel + 1, fuel' + 1, [], _, _ => rfl
  | fuel + 1, fuel' + 1, c :: cs, h, h' => by
      have hlt : (fgets (RECORD_SIZE - 1) (c :: cs)).2.length < (c :: cs).length :=
        fgets_rest_lt (by decide) (List.cons_ne_nil c cs)
      rw [readLines, readLines]
      refine congrArg (cstr (fgets (RECORD_SIZE - 1) (c :: cs)).1 :: ·)
        (readLines_fuel fuel fuel' (fgets (RECORD_SIZE - 1) (c :: cs)).2 ?_ ?_)
      · omega
      · omega

theorem fileLines_of_ne_nil {file : Bytes} (hfile : file ≠ []) :
    fileLines file = cstr (fgets (RECORD_SIZE - 1) file).1 ::
      fileLines (fgets (RECORD_SIZE - 1) file).2 := by
  have hlt : (fgets (RECORD_SIZE - 1) file).2.length < file.length :=
    fgets_rest_lt (by decide) hfile
  unfold fileLines
  cases file with
  | nil => exact absurd rfl hfile
  | cons c cs =>
      rw [List.length_cons, readLines]
      exact congrArg (_ :: ·) (readLines_fuel _ _ _ (Nat.le_of_lt_succ hlt) (Nat.le_refl _))

/-- The texts that reach `load_row`. -/
def rowTexts (lines : List Bytes) : List Bytes := (lines.map chomp).filter fun s => s ≠ []

theorem rowTexts_cons (line : Bytes) (lines : List Bytes) :
    rowTexts (line :: lines) = if chomp line = [] then rowTexts lines
      else chomp line :: rowTexts lines := by
  unfold rowTexts
  rw [List.map_cons, List.filter_cons]
  by_cases h : chomp line = [] <;> simp [h]

theorem chomp_oneLine {s : Bytes} (hs : OneLine s) : chomp (cstr s) = s := by
  rw [cstr_eq_self fun c hc => (hs c hc).1]
  unfold chomp
  rw [List.takeWhile_eq_self_iff]
  intro c hc
  simp [(hs c hc).2]

theorem chomp_line {s : Bytes} (hs : OneLine s) : chomp (cstr (s ++ [newline])) = s := by
  rw [cstr_eq_self]
  · unfold chomp
    rw [List.takeWhile_append_of_pos]
    · simp [newline]
    · intro c hc
      simp [(hs c hc).2]
  · intro c hc
    obtain hc | hc := List.mem_append.1 hc
    · exact (hs c hc).1
    · rw [List.mem_singleton.1 hc]
      decide

theorem oneLine_chomp {line : Bytes} (hnul : ∀ b ∈ line, b ≠ 0) : OneLine (chomp line) := by
  intro c hc
  have hend := List.mem_takeWhile_imp hc
  simp only [Bool.and_eq_true, bne_iff_ne] at hend
  exact ⟨hnul c ((List.takeWhile_sublist _).subset hc), hend⟩

theorem oneLine_of_mem_rowTexts {file text : Bytes} (h : text ∈ rowTexts (fileLines file)) :
    OneLine text := by
  obtain ⟨line, hline, rfl⟩ := List.mem_map.1 (List.mem_filter.1 h).1
  exact oneLine_chomp (TabVer.readLines_noNul _ _ line hline)

theorem rowTexts_line {s : Bytes} (rest : Bytes) (hs : OneLine s) :
    rowTexts (fileLines (s ++ newline :: rest)) =
      chunks (RECORD_SIZE - 1) s ++ rowTexts (fileLines rest) := by
  have hroom : 0 < RECORD_SIZE - 1 := by decide
  induction s using chunks_induction hroom with
  | nil =>
      have hshort : ([] : Bytes).length < RECORD_SIZE - 1 := hroom
      rw [fileLines_of_ne_nil (by simp), fgets_line hs.newline_not_mem, if_pos hshort,
        rowTexts_cons, chomp_line hs, if_pos rfl, chunks_nil hroom]
      rfl
  | step s hne ih =>
      have htake : OneLine (s.take (RECORD_SIZE - 1)) := fun c hc => hs c (List.mem_of_mem_take hc)
      have hdrop : OneLine (s.drop (RECORD_SIZE - 1)) := fun c hc => hs c (List.mem_of_mem_drop hc)
      rw [fileLines_of_ne_nil (by simp), fgets_line hs.newline_not_mem, chunks_of_ne_nil hroom hne,
        rowTexts_cons]
      by_cases hshort : s.length < RECORD_SIZE - 1
      · rw [if_pos hshort, chomp_line hs, if_neg hne, List.take_of_length_le hshort.le,
          List.drop_of_length_le hshort.le, chunks_nil hroom]
        rfl
      · have htne : s.take (RECORD_SIZE - 1) ≠ [] := by
          rw [Ne, List.take_eq_nil_iff, not_or]
          exact ⟨hroom.ne', hne⟩
        rw [if_neg hshort, chomp_oneLine htake, if_neg htne, ih hdrop]
        rfl

theorem rowTexts_lines : ∀ {ss : List Bytes}, (∀ s ∈ ss, OneLine s) →
    rowTexts (fileLines (ss.flatMap (· ++ [newline]))) = ss.flatMap (chunks (RECORD_SIZE - 1))
  | [], _ => rfl
  | s :: ss, h => by
      rw [List.flatMap_cons, List.flatMap_cons, List.append_assoc, List.singleton_append,
        rowTexts_line _ (h s List.mem_cons_self),
        rowTexts_lines fun s' hs' => h s' (List.mem_cons_of_mem s hs')]

/-! ## The rows of the loaded table -/

/-- The cells `load_row` makes of a text. -/
def rowOf (text : Bytes) : Row := (splitCsv text).map trimUq

theorem oneLine_of_mem_rowOf {text c : Bytes} (htext : OneLine text) (hc : c ∈ rowOf text) :
    OneLine c := by
  obtain ⟨f, hf, rfl⟩ := List.mem_map.1 hc
  exact fun b hb => htext b (mem_of_mem_splitCsv hf (mem_of_mem_trimUq hb))

namespace TabVer

theorem loadRows_rows : ∀ {lines : List Bytes} {tab tab' : TabVer},
    loadRows tab lines = some tab' → tab'.rows = tab.rows ++ (rowTexts lines).map rowOf
  | [], tab, tab', h => by
      cases h
      simp [rowTexts]
  | line :: lines, tab, tab', h => by
      rw [loadRows] at h
      rw [rowTexts_cons]
      split at h
      · rename_i hblank
        rw [if_pos hblank]
        exact loadRows_rows h
      · rename_i htext
        obtain ⟨tab₁, hrow, hrest⟩ := Option.bind_eq_some_iff.1 h
        have hrows : tab₁.rows = tab.rows ++ [rowOf (chomp line)] := by
          rw [(loadRow_spec hrow).frame]
          rfl
        rw [if_neg htext, loadRows_rows hrest, hrows, List.append_assoc]
        rfl

theorem loadRow_isSome {tab : TabVer} {text : Bytes}
    (hcount : (splitCsv text).length = tab.cols.length)
    (hpk : ∀ p, tab.pkIdx = some p → (parseL (cell (rowOf text) p)).isSome)
    (hroom : tab.rows.length + 1 ≤ rowCapMax) : ∃ tab', loadRow tab text = some tab' := by
  obtain ⟨tab₁, hcap⟩ := Option.isSome_iff_exists.1 (@ensureRowCap_isSome tab _ hroom)
  have hframe : tab₁.pkIdx = tab.pkIdx := by rw [ensureRowCap_spec hcap]
  unfold loadRow
  dsimp only
  rw [if_neg (not_not.2 hcount), hcap, Option.bind_some, hframe]
  cases hp : tab.pkIdx with
  | none => exact ⟨_, rfl⟩
  | some p =>
      obtain ⟨key, hkey⟩ := Option.isSome_iff_exists.1 (hpk p hp)
      dsimp only
      rw [rowOf] at hkey
      rw [hkey]
      exact ⟨_, rfl⟩

/-- Rows that have a cell for every column and an integer in the PK column are loaded. -/
theorem loadRows_isSome : ∀ {lines : List Bytes} {tab : TabVer},
    (∀ text ∈ rowTexts lines, (splitCsv text).length = tab.cols.length ∧
      ∀ p, tab.pkIdx = some p → (parseL (cell (rowOf text) p)).isSome) →
    tab.rows.length + (rowTexts lines).length ≤ rowCapMax →
      ∃ tab', loadRows tab lines = some tab'
  | [], tab, _, _ => ⟨tab, rfl⟩
  | line :: lines, tab, hall, hroom => by
      rw [rowTexts_cons] at hall hroom
      rw [loadRows]
      by_cases hblank : chomp line = []
      · rw [if_pos hblank] at hall hroom ⊢
        exact loadRows_isSome hall hroom
      · rw [if_neg hblank] at hall hroom ⊢
        rw [List.length_cons] at hroom
        obtain ⟨hcount, hpk⟩ := hall _ List.mem_cons_self
        obtain ⟨tab₁, hrow⟩ := loadRow_isSome hcount hpk (by omega)
        have hspec := loadRow_spec hrow
        have hrows : tab₁.rows.length = tab.rows.length + 1 := by
          rw [hspec.frame]
          simp
        have hframe : tab₁.cols = tab.cols ∧ tab₁.pkIdx = tab.pkIdx := by
          rw [hspec.frame]
          exact ⟨rfl, rfl⟩
        rw [hrow, Option.bind_some]
        refine loadRows_isSome (fun text htext => ?_) (by omega)
        rw [hframe.1, hframe.2]
        exact hall text (List.mem_cons_of_mem _ htext)

end TabVer

end MiniDbms
