import MiniDbms.Db.Select
import MiniDbms.Db.Session
import MiniDbms.Lib.Run

/-!
# The row array and its capacity

`row_cap` says how many rows the array behind `tab->rows` has room for, and
`ensure_row_cap` trusts it.  Loading, cloning and INSERT keep the two in step.
`del_do` installs an array with one slot per row and leaves `row_cap` alone.
-/

namespace MiniDbms

namespace TabVer

/-- The rows are inside the array, and `row_cap` is its size. -/
structure Fits (tab : TabVer) : Prop where
  room : tab.rows.length ≤ tab.rowCap
  cap : tab.rowCap = tab.slots

theorem Fits.congr {tab tab' : TabVer} (h : tab.Fits) (hrows : tab'.rows.length = tab.rows.length)
    (hcap : tab'.rowCap = tab.rowCap) (hslots : tab'.slots = tab.slots) : tab'.Fits where
  room := by
    rw [hrows, hcap]
    exact h.room
  cap := by
    rw [hcap, hslots]
    exact h.cap

theorem Fits.ensureRowCap {tab tab' : TabVer} {need : Nat} (h : tab.Fits)
    (he : tab.ensureRowCap need = some tab') :
    tab'.rows = tab.rows ∧ tab'.Fits ∧ need ≤ tab'.rowCap := by
  unfold TabVer.ensureRowCap at he
  split at he
  · rename_i hneed
    cases he
    exact ⟨rfl, h, hneed⟩
  · rename_i hneed
    obtain ⟨cap, hcap, rfl⟩ := Option.map_eq_some_iff.1 he
    have hle : need ≤ cap := growCap_le hcap
    have hroom := h.room
    exact ⟨rfl, ⟨by dsimp only; omega, rfl⟩, hle⟩

theorem Fits.trees {tab tab' : TabVer} (h : tab.Fits) (hs : SameButTrees tab tab') : tab'.Fits := by
  rw [hs]
  exact ⟨h.room, h.cap⟩

/-! ## Where tables come from -/

theorem Fits.loadRow {tab tab' : TabVer} {line : Bytes} (h : tab.Fits)
    (hl : loadRow tab line = some tab') : tab'.Fits := by
  have hrow := loadRow_spec hl
  obtain ⟨-, hfits, hneed⟩ := h.ensureRowCap hrow.cap
  have hrows : tab'.rows.length = tab.rows.length + 1 := by
    rw [hrow.frame, List.length_append, List.length_singleton]
  exact ⟨hrows ▸ hneed, hfits.cap⟩

theorem Fits.loadRows : ∀ (lines : List Bytes) {tab tab' : TabVer}, tab.Fits →
    loadRows tab lines = some tab' → tab'.Fits
  | [], _, _, hf, h => by
      cases h
      exact hf
  | line :: lines, tab, tab', hf, h => by
      rw [MiniDbms.loadRows] at h
      split at h
      · exact Fits.loadRows lines hf h
      · obtain ⟨tab₁, hrow, hrest⟩ := Option.bind_eq_some_iff.1 h
        exact Fits.loadRows lines (hf.loadRow hrow) hrest

/-- A table as `tab_load` or `tab_clone` returns it. -/
inductive Produced : TabVer → Prop
  | load {name : Bytes} {file : Option Bytes} {tab : TabVer}
      (h : tabLoad name file = .ok (some tab)) : Produced tab
  | clone {src tab : TabVer} (h : src.tabClone = some tab) : Produced tab

theorem Produced.fits {tab : TabVer} (h : Produced tab) : tab.Fits := by
  cases h with
  | @load name _ _ h =>
      obtain ⟨bytes, header, lines, hdr, tab₀, tab₁, -, -, -, hrows, hidx, rfl⟩ := tabLoad_cases h
      have hempty : (hdrTab name hdr).Fits := ⟨Nat.le_refl _, rfl⟩
      have hfits := (hempty.loadRows lines hrows).trees (idxBuild_spec hidx).1
      exact ⟨hfits.room, hfits.cap⟩
  | clone h =>
      rw [(tabClone_spec h).1]
      exact ⟨Nat.le_refl _, rfl⟩

/-! ## One call -/

/-- A call on a table, whatever it is the answer to. -/
inductive RowCall
  | ins (stmt : Statement) (res : DbRes)
  | upd (stmt : Statement) (res : DbRes)
  | del (stmt : Statement) (res : DbRes)

def rowStep (tab : TabVer) : RowCall → Except Fault TabVer
  | .ins stmt res => (tab.insDo stmt res).map Prod.fst
  | .upd stmt res => .ok (tab.updDo stmt res).1
  | .del stmt res => .ok (tab.delDo stmt res).1

/-- A DELETE that gets to its new array finds the old one full. -/
def DeletesFull (tab : TabVer) : RowCall → Prop
  | .del stmt _ => stmt.whereConditions ≠ [] → tab.rows.length = tab.rowCap
  | _ => True

instance (tab : TabVer) : (call : RowCall) → Decidable (tab.DeletesFull call)
  | .del stmt _ => inferInstanceAs (Decidable (stmt.whereConditions ≠ [] → _ = _))
  | .ins _ _ => isTrue trivial
  | .upd _ _ => isTrue trivial

theorem Fits.insRow {tab : TabVer} (h : tab.Fits) (hroom : tab.rows.length + 1 ≤ tab.rowCap)
    (row : Row) (newId : Int) (res : DbRes) : (tab.insRow row newId res).1.Fits := by
  rcases hr : tab.insRow row newId res with ⟨tab', res', ok⟩
  have hadded : tab' = { tab with
      rows := tab.rows ++ [row], pkTree := tab'.pkTree, ukTree := tab'.ukTree } → tab'.Fits := by
    intro heq
    rw [heq]
    refine ⟨?_, h.cap⟩
    dsimp only
    rw [List.length_append, List.length_singleton]
    exact hroom
  rcases insRow_cases hr with ⟨-, rfl⟩ | ⟨-, heq, -⟩ | ⟨-, -, heq, -⟩
  · exact h
  · exact hadded heq
  · exact hadded heq

theorem Fits.insDo {tab : TabVer} (h : tab.Fits) (stmt : Statement) (res : DbRes) :
    ∃ r, tab.insDo stmt res = .ok r ∧ r.1.Fits := by
  unfold TabVer.insDo
  dsimp only
  split
  · exact ⟨_, rfl, h⟩
  · cases hcap : tab.ensureRowCap (tab.rows.length + 1) with
    | none => exact ⟨_, rfl, h⟩
    | some tab₁ =>
        obtain ⟨hrows, hfits, hneed⟩ := h.ensureRowCap hcap
        rw [← hrows] at hneed
        have hinside : ¬ tab₁.slots ≤ tab₁.rows.length := by
          rw [← hfits.cap]
          omega
        dsimp only
        rw [if_neg hinside]
        rcases tab₁.rowNew (splitCsv stmt.rowData.bytes) with ⟨nextId, _ | ⟨row, newId⟩⟩
        · exact ⟨_, rfl, hfits.room, hfits.cap⟩
        · have hnext : TabVer.Fits { tab₁ with nextId := nextId } := ⟨hfits.room, hfits.cap⟩
          exact ⟨_, rfl, hnext.insRow hneed row newId res⟩

theorem Fits.updDo {tab : TabVer} (h : tab.Fits) (stmt : Statement) (res : DbRes) :
    (tab.updDo stmt res).1.Fits := by
  rcases hr : tab.updDo stmt res with ⟨tab', res', ok⟩
  rcases updDo_cases hr with ⟨-, rfl⟩ | ⟨setIdx, hu⟩
  · exact h
  · have hlen : tab'.rows.length = tab.rows.length := by
      rw [hu.rows]
      exact List.length_map _
    have hcap : tab'.rowCap = tab.rowCap := by rw [hu.frame]
    exact h.congr hlen hcap hu.slots

/-- The array of a DELETE has the size `row_cap` says exactly when the old one was full. -/
theorem Fits.delDo_iff {tab : TabVer} (h : tab.Fits) (stmt : Statement) (res : DbRes) :
    (tab.delDo stmt res).1.Fits ↔ (stmt.whereConditions ≠ [] → tab.rows.length = tab.rowCap) := by
  by_cases hwhere : stmt.whereConditions = []
  · have hsame : (tab.delDo stmt res).1 = tab := by
      unfold TabVer.delDo
      rw [if_pos hwhere]
    rw [hsame]
    exact ⟨fun _ hne => absurd hwhere hne, fun _ => h⟩
  · have hnew : SameButTrees { tab with
        rows := tab.rows.filter fun row => !tab.rowMatch stmt row
        slots := tab.rows.length } (tab.delDo stmt res).1 := by
      unfold TabVer.delDo
      rw [if_neg hwhere]
      exact (rebuild_cases rfl).1
    rw [hnew]
    have hle : (tab.rows.filter fun row => !tab.rowMatch stmt row).length ≤ tab.rows.length :=
      List.length_filter_le _ _
    constructor
    · exact fun hfits _ => hfits.cap.symm
    · exact fun hfull => ⟨hle.trans h.room, (hfull hwhere).symm⟩

/-- **One call** keeps the capacity right exactly when it is no DELETE from an array with
free slots. -/
theorem Fits.rowStep_iff {tab : TabVer} (h : tab.Fits) (call : RowCall) :
    (∃ tab', tab.rowStep call = .ok tab' ∧ tab'.Fits) ↔ tab.DeletesFull call := by
  cases call with
  | ins stmt res =>
      obtain ⟨r, hr, hfits⟩ := h.insDo stmt res
      have hstep : tab.rowStep (.ins stmt res) = .ok r.1 := by
        change (tab.insDo stmt res).map Prod.fst = _
        rw [hr]
        rfl
      exact ⟨fun _ => trivial, fun _ => ⟨r.1, hstep, hfits⟩⟩
  | upd stmt res => exact ⟨fun _ => trivial, fun _ => ⟨_, rfl, h.updDo stmt res⟩⟩
  | del stmt res =>
      refine Iff.trans ?_ (h.delDo_iff stmt res)
      constructor
      · rintro ⟨tab', heq, hfits⟩
        cases heq
        exact hfits
      · exact fun hfits => ⟨_, rfl, hfits⟩

/-- **Row storage.**  Through any calls on a loaded or cloned table every row is written
inside the array and `row_cap` stays its size, exactly when no DELETE with a WHERE clause
starts from an array that has free slots. -/
theorem rows_fit_iff {tab : TabVer} (h : Produced tab) (calls : List RowCall) :
    Run.Always rowStep Fits tab calls ↔ Run.Guarded rowStep DeletesFull tab calls :=
  Run.always_iff_guarded (fun _ call hfits => Fits.rowStep_iff hfits call) h.fits

/-- A clone has no free slots, so a DELETE may come first, and an INSERT after it. -/
theorem rows_fit_clone_delete_insert : ∃ src tab del ins,
    tabLoad (str "t") (some (str "id(PK)\n1\n2\n")) = .ok (some src) ∧ src.tabClone = some tab ∧
    parseStatement (str "DELETE FROM t WHERE id = 1") = some del ∧
    parseStatement (str "INSERT INTO t VALUES (3)") = some ins ∧
    Run.Always rowStep Fits tab [.del del {}, .ins ins {}] := by
  obtain ⟨src, hload, htest⟩ := exists_of_loadsAnd (str "t") (str "id(PK)\n1\n2\n")
    (fun src => src.tabClone.any fun tab =>
      (parseStatement (str "DELETE FROM t WHERE id = 1")).any fun del =>
        (parseStatement (str "INSERT INTO t VALUES (3)")).any fun ins =>
          decide (Run.Guarded rowStep DeletesFull tab [.del del {}, .ins ins {}]))
    (by decide +kernel)
  obtain ⟨tab, hclone, htest⟩ := (Option.any_eq_true _ _).1 htest
  obtain ⟨del, hdel, htest⟩ := (Option.any_eq_true _ _).1 htest
  obtain ⟨ins, hins, htest⟩ := (Option.any_eq_true _ _).1 htest
  exact ⟨src, tab, del, ins, hload, hclone, hdel, hins,
    (rows_fit_iff (.clone hclone) _).2 (of_decide_eq_true htest)⟩

/-- The second row that follows the DELETE of the only one lies behind the array. -/
theorem rows_overrun_after_delete : ∃ tab del ins ins',
    tabLoad (str "t") (some (str "id(PK)\n1\n")) = .ok (some tab) ∧
    parseStatement (str "DELETE FROM t WHERE id = 1") = some del ∧
    parseStatement (str "INSERT INTO t VALUES (2)") = some ins ∧
    parseStatement (str "INSERT INTO t VALUES (3)") = some ins' ∧
    ¬ Run.Always rowStep Fits tab [.del del {}, .ins ins {}, .ins ins' {}] := by
  obtain ⟨tab, hload, htest⟩ := exists_of_loadsAnd (str "t") (str "id(PK)\n1\n")
    (fun tab => (parseStatement (str "DELETE FROM t WHERE id = 1")).any fun del =>
      (parseStatement (str "INSERT INTO t VALUES (2)")).any fun ins =>
        (parseStatement (str "INSERT INTO t VALUES (3)")).any fun ins' =>
          !(Run.exec rowStep tab [.del del {}, .ins ins {}, .ins ins' {}]).toBool)
    (by decide +kernel)
  obtain ⟨del, hdel, htest⟩ := (Option.any_eq_true _ _).1 htest
  obtain ⟨ins, hins, htest⟩ := (Option.any_eq_true _ _).1 htest
  obtain ⟨ins', hins', htest⟩ := (Option.any_eq_true _ _).1 htest
  refine ⟨tab, del, ins, ins', hload, hdel, hins, hins', fun halways => ?_⟩
  obtain ⟨tab', hrun, -⟩ := halways.exec
  rw [hrun] at htest
  cases htest

end TabVer

end MiniDbms
