import MiniDbms.Db.Effect
import MiniDbms.Db.Twin

/-!
# Statements that fail

`ins_do` moves the id counter before it looks at the constraints, and `upd_do`
replaces the cells before it knows that two of them collide.  Here is exactly when
a statement that fails has already changed the table.
-/

namespace MiniDbms

open Bptree

namespace TabVer

variable {tab tab' : TabVer} {stmt : Statement} {vals : List Bytes} {res res' : DbRes}

/-! ## The values of an INSERT -/

/-- The values are one for each column, or the leading PK is left out. -/
def ValuesFit (tab : TabVer) (vals : List Bytes) : Prop :=
  vals.length = tab.cols.length ∨ tab.pkIdx = some 0 ∧ vals.length + 1 = tab.cols.length

/-- The text given for column `i`. -/
def given (tab : TabVer) (vals : List Bytes) (i : Nat) : Bytes :=
  trimUq (if vals.length ≠ tab.cols.length ∧ tab.pkIdx.any (· < i) then vals.getD (i - 1) []
    else vals.getD i [])

/-- The text given for the PK. -/
def pkGiven (tab : TabVer) (vals : List Bytes) : Option Bytes :=
  if vals.length != tab.cols.length then none else tab.pkIdx.bind fun p => vals[p]?

/-- A PK that is omitted, empty or NULL. -/
def PkLeftOut (tab : TabVer) (vals : List Bytes) : Prop :=
  (tab.pkGiven vals).getD [] = [] ∨ cmpV ((tab.pkGiven vals).getD []) (str "NULL")

instance : Decidable (tab.PkLeftOut vals) := inferInstanceAs (Decidable (_ ∨ _))

/-- The id that the values ask for: the counter, when the PK is left out. -/
def askedId (tab : TabVer) (vals : List Bytes) : Option Int :=
  if tab.PkLeftOut vals then some tab.nextId else parseL ((tab.pkGiven vals).getD [])

/-- A NN column gets no text. -/
def LacksNn (tab : TabVer) (vals : List Bytes) : Prop :=
  ∃ i < tab.cols.length, tab.colType i = .nn ∧ tab.given vals i = []

/-- A row has the id already. -/
def PkTaken (tab : TabVer) (id : Int) : Prop := ∃ row ∈ tab.rows, pkVal tab.pkIdx row = some id

/-- A row has the text of a unique column already. -/
def UkTaken (tab : TabVer) (vals : List Bytes) : Prop :=
  ∃ c ∈ tab.ukIdx, ∃ row ∈ tab.rows, ukText c row = some (normV RECORD_SIZE (tab.given vals c))

/-- The counter behind an id. -/
def counterAfter (tab : TabVer) (id : Int) : Int :=
  if tab.nextId ≤ id then wrapL (id + 1) else tab.nextId

theorem rowId_eq (hpk : tab.pkIdx.isSome) :
    tab.rowId (tab.pkGiven vals) =
      if tab.PkLeftOut vals then (tab.counterAfter tab.nextId, some (tab.nextId, true))
      else match parseL ((tab.pkGiven vals).getD []) with
        | none => (tab.nextId, none)
        | some id => (tab.counterAfter id, some (id, false)) := by
  obtain ⟨p, hp⟩ := Option.isSome_iff_exists.1 hpk
  have hself : tab.counterAfter tab.nextId = wrapL (tab.nextId + 1) := if_pos (le_refl _)
  unfold rowId
  rw [hp, hself]
  rfl

theorem given_eq_rowSrc {i : Nat} {newId : Int} {auto : Bool} (h : tab.pkIdx ≠ some i) :
    trimUq (tab.rowSrc vals (vals.length != tab.cols.length) newId auto i) =
      tab.given vals i := by
  unfold rowSrc given
  rw [if_neg fun hand => h hand.1]
  simp only [bne_iff_ne]

/-- A row with the given texts, but for the PK. -/
def Given (tab : TabVer) (vals : List Bytes) (row : Row) : Prop :=
  ∀ i < tab.cols.length, tab.pkIdx ≠ some i → cell row i = tab.given vals i

theorem Shape.not_pk (hs : tab.Shape) {i : Nat} (h : tab.colType i ≠ .pk) :
    tab.pkIdx ≠ some i := by
  intro hp
  exact h (hs.pk_lt hp).2

theorem rowNew_of_id (hs : tab.Shape) (hfit : tab.ValuesFit vals) {counter newId : Int}
    {auto : Bool} (hid : tab.rowId (tab.pkGiven vals) = (counter, some (newId, auto))) :
    (tab.LacksNn vals ∧ tab.rowNew vals = (counter, none)) ∨
      ¬ tab.LacksNn vals ∧
        ∃ row, tab.rowNew vals = (counter, some (row, newId)) ∧ tab.Given vals row := by
  have hgo : ¬ ((vals.length != tab.cols.length) = true ∧
      ¬ (tab.pkIdx = some 0 ∧ vals.length + 1 = tab.cols.length)) := by
    rintro ⟨hne, hmiss⟩
    rcases hfit with heq | hok
    · simp [heq] at hne
    · exact hmiss hok
  unfold rowNew
  unfold pkGiven at hid
  dsimp only
  rw [if_neg hgo, hid]
  dsimp only
  generalize hrow : (List.range tab.cols.length).map (fun i =>
    trimUq (tab.rowSrc vals (vals.length != tab.cols.length) newId auto i)) = row
  have hgiven : tab.Given vals row := by
    intro i hi hne
    rw [← hrow, cell_map_range _ hi]
    exact given_eq_rowSrc hne
  have hnn : ((List.range tab.cols.length).any fun i =>
      tab.colType i == .nn && (cell row i).isEmpty) = true ↔ tab.LacksNn vals := by
    rw [List.any_eq_true]
    constructor
    · rintro ⟨i, hi, hand⟩
      simp only [Bool.and_eq_true, beq_iff_eq, List.isEmpty_iff] at hand
      have hlt := List.mem_range.1 hi
      rw [hgiven i hlt (hs.not_pk (by rw [hand.1]; simp))] at hand
      exact ⟨i, hlt, hand⟩
    · rintro ⟨i, hi, htype, hempty⟩
      refine ⟨i, List.mem_range.2 hi, ?_⟩
      rw [hgiven i hi (hs.not_pk (by rw [htype]; simp)), htype, hempty]
      rfl
  by_cases hlack : tab.LacksNn vals
  · exact Or.inl ⟨hlack, by rw [if_pos (hnn.2 hlack)]⟩
  · exact Or.inr ⟨hlack, row, by rw [if_neg (mt hnn.1 hlack)], hgiven⟩

theorem rowNew_of_misfit (h : ¬ tab.ValuesFit vals) : tab.rowNew vals = (tab.nextId, none) := by
  unfold rowNew
  refine if_pos ⟨?_, fun hok => h (Or.inr hok)⟩
  rw [bne_iff_ne]
  exact fun heq => h (Or.inl heq)

theorem rowNew_pk (hs : tab.Shape) (hfit : tab.ValuesFit vals) (hpk : tab.pkIdx.isSome) :
    match tab.askedId vals with
    | none => tab.rowNew vals = (tab.nextId, none)
    | some id => (tab.LacksNn vals ∧ tab.rowNew vals = (tab.counterAfter id, none)) ∨
      ¬ tab.LacksNn vals ∧
        ∃ row, tab.rowNew vals = (tab.counterAfter id, some (row, id)) ∧ tab.Given vals row := by
  have hid := @rowId_eq tab vals hpk
  unfold askedId
  by_cases hout : tab.PkLeftOut vals
  · rw [if_pos hout] at hid ⊢
    exact rowNew_of_id hs hfit hid
  · rw [if_neg hout] at hid ⊢
    cases hparse : parseL ((tab.pkGiven vals).getD []) with
    | none =>
        rw [hparse] at hid
        unfold pkGiven at hid
        unfold rowNew
        dsimp only
        split
        · rfl
        · rw [hid]
    | some id =>
        rw [hparse] at hid
        exact rowNew_of_id hs hfit hid

theorem rowNew_no_pk (hs : tab.Shape) (hfit : tab.ValuesFit vals) (hpk : tab.pkIdx = none) :
    (tab.LacksNn vals ∧ tab.rowNew vals = (tab.nextId, none)) ∨
      ¬ tab.LacksNn vals ∧
        ∃ row, tab.rowNew vals = (tab.nextId, some (row, 0)) ∧ tab.Given vals row := by
  have hid : tab.rowId (tab.pkGiven vals) = (tab.nextId, some (0, false)) := by
    unfold rowId
    rw [hpk]
  exact rowNew_of_id hs hfit hid

/-! ## What the checks of `ins_do` find -/

theorem insDo_behind_room {ok : Bool} (h : tab.insDo stmt res = .ok (tab', res', ok))
    (hroom : tab.rows.length < MAX_RECORDS) : ∃ cap slots,
    match tab.rowNew (splitCsv stmt.rowData.bytes) with
    | (counter, none) => ok = false ∧
        tab' = { tab with rowCap := cap, slots := slots, nextId := counter }
    | (counter, some (row, newId)) =>
        insRow { tab with rowCap := cap, slots := slots, nextId := counter } row newId res =
          (tab', res', ok) := by
  have hle : tab.rows.length + 1 ≤ rowCapMax := by
    have : MAX_RECORDS ≤ rowCapMax := by decide
    omega
  obtain ⟨grown, hcap⟩ := Option.isSome_iff_exists.1 (@ensureRowCap_isSome tab _ hle)
  have hframe := ensureRowCap_spec hcap
  generalize grown.rowCap = cap at hframe
  generalize grown.slots = slots at hframe
  subst hframe
  refine ⟨cap, slots, ?_⟩
  unfold insDo at h
  dsimp only at h
  rw [if_neg (Nat.not_le.2 hroom), hcap] at h
  dsimp only at h
  split at h
  · cases h
  · have hnew : TabVer.rowNew { tab with rowCap := cap, slots := slots }
        (splitCsv stmt.rowData.bytes) = tab.rowNew (splitCsv stmt.rowData.bytes) := rfl
    rw [hnew] at h
    generalize tab.rowNew (splitCsv stmt.rowData.bytes) = new at h
    rcases new with ⟨counter, _ | ⟨row, newId⟩⟩
    · cases h
      exact ⟨rfl, rfl⟩
    · exact Except.ok.inj h

theorem insDo_row_limit {ok : Bool} (h : tab.insDo stmt res = .ok (tab', res', ok))
    (hmax : MAX_RECORDS ≤ tab.rows.length) : ok = false ∧ tab' = tab := by
  unfold insDo at h
  dsimp only at h
  rw [if_pos hmax] at h
  cases h
  exact ⟨rfl, rfl⟩

theorem chkDupPk_iff (hidx : tab.IndexOk) (hpk : tab.pkIdx.isSome) (id : Int) :
    tab.chkDupPk id = true ↔ tab.PkTaken id := by
  obtain ⟨p, hp⟩ := Option.isSome_iff_exists.1 hpk
  unfold chkDupPk
  rw [hpk, Bool.true_and, Option.isSome_iff_exists]
  simp only [(hidx.pk p hp).search_eq_some]
  constructor
  · rintro ⟨i, hi⟩
    obtain ⟨row, hrow, hkey⟩ := Option.bind_eq_some_iff.1 hi
    exact ⟨row, List.mem_of_getElem? hrow, hkey⟩
  · rintro ⟨row, hrow, hkey⟩
    obtain ⟨i, hi⟩ := List.mem_iff_getElem?.1 hrow
    exact ⟨i, by rw [keyAt, hi]; exact hkey⟩

theorem chkDupUk_iff (huk : UkFiled tab.rows tab.ukIdx tab.ukTree) {c : Nat} (hc : c ∈ tab.ukIdx)
    (val : Bytes) : tab.chkDupUk c val none = true ↔
      ∃ row ∈ tab.rows, ukText c row = some (normV RECORD_SIZE val) := by
  unfold chkDupUk
  cases hslot : tab.ukSlot c with
  | none =>
      rw [ukSlot, List.findIdx?_eq_none_iff] at hslot
      simpa using hslot c hc
  | some slot =>
      have hfiled := ukFiled_at huk (ukIdx_of_ukSlot hslot)
      rw [← ukTreeAt] at hfiled
      dsimp only
      by_cases hempty : val = []
      · subst hempty
        rw [if_pos rfl]
        refine iff_of_false (by simp) ?_
        rintro ⟨row, -, hkey⟩
        exact (ukText_eq_some.1 hkey).1 ((ukText_eq_some.1 hkey).2.trans rfl)
      · rw [if_neg hempty]
        cases hsearch : search (tab.ukTreeAt slot) (normV RECORD_SIZE val) with
        | none =>
            refine iff_of_false (by simp) ?_
            rintro ⟨row, hrow, hkey⟩
            obtain ⟨i, hi⟩ := List.mem_iff_getElem?.1 hrow
            have hfound := (hfiled.search_eq_some _ i).2
              (show keyAt (ukText c) tab.rows i = some _ by rw [keyAt, hi]; exact hkey)
            rw [hsearch] at hfound
            cases hfound
        | some i =>
            refine iff_of_true rfl ?_
            obtain ⟨row, hrow, hkey⟩ := Option.bind_eq_some_iff.1
              ((hfiled.search_eq_some _ i).1 hsearch)
            exact ⟨row, List.mem_of_getElem? hrow, hkey⟩

theorem ukTaken_iff (hs : tab.Shape) (huk : UkFiled tab.rows tab.ukIdx tab.ukTree) {row : Row}
    (hrow : tab.Given vals row) :
    (tab.ukIdx.any fun c => tab.chkDupUk c (cell row c) none) = true ↔ tab.UkTaken vals := by
  rw [List.any_eq_true]
  refine exists_congr fun c => and_congr_right fun hc => ?_
  obtain ⟨hlt, htype⟩ := hs.mem_ukIdx.1 hc
  rw [chkDupUk_iff huk hc, hrow c hlt (hs.not_pk (by rw [htype]; simp))]

theorem ukEnter_of_free (hs : tab.Shape) (huk : UkFiled tab.rows tab.ukIdx tab.ukTree) {row : Row}
    (hrow : tab.Given vals row) (hfree : ¬ tab.UkTaken vals) :
    (ukEnter row tab.rows.length tab.ukIdx tab.ukTree).2 = true := by
  rw [ukEnter_iff huk]
  intro c hc k hk i hi
  obtain ⟨hlt, htype⟩ := hs.mem_ukIdx.1 hc
  have hval := (ukText_eq_some.1 hk).2
  rw [hrow c hlt (hs.not_pk (by rw [htype]; simp))] at hval
  obtain ⟨old, hold, hkey⟩ := Option.bind_eq_some_iff.1 hi
  exact hfree ⟨c, hc, old, List.mem_of_getElem? hold, by rw [hval]; exact hkey⟩

/-! ## Failures that leave something behind -/

/-- What a statement may not change when it fails. -/
structure Unchanged (tab tab' : TabVer) : Prop where
  rows : tab'.rows = tab.rows
  nextId : tab'.nextId = tab.nextId
  pkTree : search tab'.pkTree = search tab.pkTree
  ukTree : ∀ slot, search (tab'.ukTreeAt slot) = search (tab.ukTreeAt slot)

/-- An INSERT that takes an id and is then refused, or that finds the key 0 in the PK
tree of a table without a PK. -/
def InsSpoils (tab : TabVer) (vals : List Bytes) : Prop :=
  tab.rows.length < MAX_RECORDS ∧ tab.ValuesFit vals ∧
    match tab.pkIdx with
    | some _ => ∃ id, tab.askedId vals = some id ∧ tab.counterAfter id ≠ tab.nextId ∧
        (tab.LacksNn vals ∨ tab.PkTaken id ∨ tab.UkTaken vals)
    | none => (search tab.pkTree 0).isSome ∧ ¬ tab.LacksNn vals ∧ ¬ tab.UkTaken vals

/-- An UPDATE that gives several rows a new value of a unique column. -/
def UpdSpoils (tab : TabVer) (stmt : Statement) : Prop :=
  ∃ c ∈ tab.ukIdx, tab.colIdx stmt.setCol.bytes = some c ∧
    stmt.whereConditions ≠ [] ∧ 2 ≤ tab.rows.countP (tab.rowMatch stmt) ∧
    normV RECORD_SIZE (normV 256 stmt.setVal.bytes) ≠ [] ∧
    ∀ row ∈ tab.rows, ukText c row ≠ some (normV RECORD_SIZE (normV 256 stmt.setVal.bytes))

def Spoils (tab : TabVer) (stmt : Statement) : Prop :=
  match stmt.type with
  | .insert => tab.InsSpoils (splitCsv stmt.rowData.bytes)
  | .update => tab.UpdSpoils stmt
  | _ => False

theorem Unchanged.refl (tab : TabVer) : Unchanged tab tab := ⟨rfl, rfl, rfl, fun _ => rfl⟩

/-- The room for rows does not count, the counter does. -/
theorem unchanged_counter_iff {cap slots : Nat} {counter : Int} :
    Unchanged tab { tab with rowCap := cap, slots := slots, nextId := counter } ↔
      counter = tab.nextId := by
  constructor
  · exact fun h => h.nextId
  · rintro rfl
    exact ⟨rfl, rfl, rfl, fun _ => rfl⟩

theorem insRow_refused {row : Row} {newId : Int} {ok : Bool}
    (h : tab.insRow row newId res = (tab', res', ok))
    (hdup : tab.chkDupPk newId = true ∨
      (tab.ukIdx.any fun c => tab.chkDupUk c (cell row c) none) = true) :
    ok = false ∧ tab' = tab := by
  unfold insRow at h
  split at h
  · cases h
    exact ⟨rfl, rfl⟩
  · rename_i hpk
    rw [if_pos (hdup.resolve_left hpk)] at h
    cases h
    exact ⟨rfl, rfl⟩

theorem insRow_flag_of_free {row : Row} {newId : Int} {ok : Bool}
    (h : tab.insRow row newId res = (tab', res', ok)) (hpk : tab.chkDupPk newId = false)
    (huk : (tab.ukIdx.any fun c => tab.chkDupUk c (cell row c) none) = false)
    (hent : (ukEnter row tab.rows.length tab.ukIdx tab.ukTree).2 = true) :
    ok = (bptreeInsert tab.pkTree newId tab.rows.length).isSome ∧
      tab'.rows = tab.rows ++ [row] := by
  have hflag := insRow_flag tab row newId res
  rw [h, hpk, huk, hent] at hflag
  refine ⟨by simpa using hflag, ?_⟩
  unfold insRow at h
  rw [if_neg (by rw [hpk]; simp), if_neg (by rw [huk]; simp)] at h
  dsimp only at h
  split at h
  · cases h
    rfl
  · split at h
    · cases h
      rfl
    · cases h
      rfl

theorem search_isSome_iff {tree : BPlusTree Int} {key : Nat → Option Int} (h : Indexes tree key)
    (k : Int) : (search tree k).isSome = true ↔ ∃ i, key i = some k := by
  rw [Option.isSome_iff_exists]
  exact exists_congr fun i => h.search_eq_some k i

theorem insDo_clean_pk (hs : tab.Shape) (hidx : tab.IndexOk) {ok : Bool}
    (h : tab.insDo stmt res = .ok (tab', res', ok)) (hroom : tab.rows.length < MAX_RECORDS)
    (hfit : tab.ValuesFit (splitCsv stmt.rowData.bytes)) {p : Nat} (hp : tab.pkIdx = some p) :
    (ok = false → Unchanged tab tab') ↔ ¬ ∃ id,
      tab.askedId (splitCsv stmt.rowData.bytes) = some id ∧ tab.counterAfter id ≠ tab.nextId ∧
        (tab.LacksNn (splitCsv stmt.rowData.bytes) ∨ tab.PkTaken id ∨
          tab.UkTaken (splitCsv stmt.rowData.bytes)) := by
  have hsome : tab.pkIdx.isSome := by rw [hp]; rfl
  obtain ⟨cap, slots, hrun⟩ := insDo_behind_room h hroom
  have hnew := rowNew_pk hs hfit hsome
  generalize splitCsv stmt.rowData.bytes = vals at *
  cases hasked : tab.askedId vals with
  | none =>
      rw [hasked] at hnew
      rw [hnew] at hrun
      obtain ⟨-, rfl⟩ := hrun
      refine iff_of_true (fun _ => unchanged_counter_iff.2 rfl) ?_
      rintro ⟨id, hid, -⟩
      cases hid
  | some id =>
      rw [hasked] at hnew
      have hrefused : ok = false → tab' = { tab with
            rowCap := cap, slots := slots, nextId := tab.counterAfter id } →
          (tab.LacksNn vals ∨ tab.PkTaken id ∨ tab.UkTaken vals) →
          ((ok = false → Unchanged tab tab') ↔ ¬ ∃ id', some id = some id' ∧
            tab.counterAfter id' ≠ tab.nextId ∧
              (tab.LacksNn vals ∨ tab.PkTaken id' ∨ tab.UkTaken vals)) := by
        intro hok htab hwhy
        rw [htab, unchanged_counter_iff]
        constructor
        · rintro hkept ⟨id', hid, hmoved, -⟩
          cases hid
          exact hmoved (hkept hok)
        · intro hnot _
          by_contra hmoved
          exact hnot ⟨id, rfl, hmoved, hwhy⟩
      rcases hnew with ⟨hlack, hnew⟩ | ⟨hlack, row, hnew, hgiven⟩
      · rw [hnew] at hrun
        exact hrefused hrun.1 hrun.2 (Or.inl hlack)
      · rw [hnew] at hrun
        dsimp only at hrun
        by_cases hwhy : tab.PkTaken id ∨ tab.UkTaken vals
        · have hdup : tab.chkDupPk id = true ∨
              (tab.ukIdx.any fun c => tab.chkDupUk c (cell row c) none) = true :=
            hwhy.imp (chkDupPk_iff hidx hsome id).2 (ukTaken_iff hs hidx.uk hgiven).2
          obtain ⟨hok, htab⟩ := insRow_refused hrun hdup
          exact hrefused hok htab (Or.inr hwhy)
        · have hpk : tab.chkDupPk id = false := by
            rw [Bool.eq_false_iff, Ne, chkDupPk_iff hidx hsome]
            exact fun hdup => hwhy (Or.inl hdup)
          have huk : (tab.ukIdx.any fun c => tab.chkDupUk c (cell row c) none) = false := by
            rw [Bool.eq_false_iff, Ne, ukTaken_iff hs hidx.uk hgiven]
            exact fun hdup => hwhy (Or.inr hdup)
          obtain ⟨hok, -⟩ := insRow_flag_of_free hrun hpk huk
            (ukEnter_of_free hs hidx.uk hgiven fun hdup => hwhy (Or.inr hdup))
          have htrue : ok = true := by
            rw [hok]
            refine (bptreeInsert_isSome (hidx.pk p hp) keyAt_length id).2 fun i hi => ?_
            obtain ⟨old, hold, hkey⟩ := Option.bind_eq_some_iff.1 hi
            exact hwhy (Or.inl ⟨old, List.mem_of_getElem? hold, hkey⟩)
          refine iff_of_true (fun hfalse => ?_) ?_
          · rw [htrue] at hfalse
            cases hfalse
          · rintro ⟨id', hid, -, hbad⟩
            cases hid
            exact hbad.elim hlack hwhy

theorem insDo_clean_no_pk (hs : tab.Shape) (hacc : tab.Accessible) {ok : Bool}
    (h : tab.insDo stmt res = .ok (tab', res', ok)) (hroom : tab.rows.length < MAX_RECORDS)
    (hfit : tab.ValuesFit (splitCsv stmt.rowData.bytes)) (hp : tab.pkIdx = none) :
    (ok = false → Unchanged tab tab') ↔ ¬ ((search tab.pkTree 0).isSome ∧
      ¬ tab.LacksNn (splitCsv stmt.rowData.bytes) ∧
        ¬ tab.UkTaken (splitCsv stmt.rowData.bytes)) := by
  obtain ⟨cap, slots, hrun⟩ := insDo_behind_room h hroom
  have hnew := rowNew_no_pk hs hfit hp
  generalize splitCsv stmt.rowData.bytes = vals at *
  rcases hnew with ⟨hlack, hnew⟩ | ⟨hlack, row, hnew, hgiven⟩
  · rw [hnew] at hrun
    obtain ⟨-, rfl⟩ := hrun
    exact iff_of_true (fun _ => unchanged_counter_iff.2 rfl) fun hbad => hbad.2.1 hlack
  · rw [hnew] at hrun
    dsimp only at hrun
    by_cases htaken : tab.UkTaken vals
    · obtain ⟨-, rfl⟩ := insRow_refused hrun (Or.inr ((ukTaken_iff hs hacc.uk hgiven).2 htaken))
      exact iff_of_true (fun _ => unchanged_counter_iff.2 rfl) fun hbad => hbad.2.2 htaken
    · have hpk : tab.chkDupPk 0 = false := by
        unfold chkDupPk
        rw [hp]
        rfl
      have huk : (tab.ukIdx.any fun c => tab.chkDupUk c (cell row c) none) = false := by
        rw [Bool.eq_false_iff, Ne, ukTaken_iff hs hacc.uk hgiven]
        exact htaken
      obtain ⟨hok, hrows⟩ := insRow_flag_of_free hrun hpk huk
        (ukEnter_of_free hs hacc.uk hgiven htaken)
      obtain ⟨key, hkey, hfresh, -⟩ := hacc.pk
      have hiff : ok = true ↔ ¬ (search tab.pkTree 0).isSome := by
        rw [hok, search_isSome_iff hkey, not_exists]
        exact bptreeInsert_isSome hkey (hfresh _ le_rfl) 0
      constructor
      · rintro hkept ⟨hzero, -⟩
        have hfalse : ok = false := by
          rw [← Bool.not_eq_true, hiff]
          exact fun hnot => hnot hzero
        have hsame := (hkept hfalse).rows
        rw [hrows] at hsame
        have hlen := congrArg List.length hsame
        simp at hlen
      · intro hnot hfalse
        rw [← Bool.not_eq_true, hiff] at hfalse
        exact absurd ⟨not_not.1 hfalse, hlack, htaken⟩ hnot

theorem insDo_clean_iff (hs : tab.Shape) (hidx : tab.IndexOk) (hacc : tab.Accessible) {ok : Bool}
    (h : tab.insDo stmt res = .ok (tab', res', ok)) :
    (ok = false → Unchanged tab tab') ↔ ¬ tab.InsSpoils (splitCsv stmt.rowData.bytes) := by
  unfold InsSpoils
  by_cases hroom : tab.rows.length < MAX_RECORDS
  · by_cases hfit : tab.ValuesFit (splitCsv stmt.rowData.bytes)
    · cases hp : tab.pkIdx with
      | some p =>
          rw [insDo_clean_pk hs hidx h hroom hfit hp]
          simp only [hroom, hfit, true_and]
      | none =>
          rw [insDo_clean_no_pk hs hacc h hroom hfit hp]
          simp only [hroom, hfit, true_and]
    · obtain ⟨cap, slots, hrun⟩ := insDo_behind_room h hroom
      rw [rowNew_of_misfit hfit] at hrun
      obtain ⟨-, rfl⟩ := hrun
      exact iff_of_true (fun _ => unchanged_counter_iff.2 rfl) fun hbad => hfit hbad.2.1
  · obtain ⟨-, rfl⟩ := insDo_row_limit h (Nat.le_of_not_lt hroom)
    exact iff_of_true (fun _ => .refl tab') fun hbad => hroom hbad.1

/-! ## UPDATE -/

theorem two_le_countP {α : Type} {p : α → Bool} {l : List α} {i j : Nat} {a b : α} (hlt : i < j)
    (hi : l[i]? = some a) (hj : l[j]? = some b) (ha : p a = true) (hb : p b = true) :
    2 ≤ l.countP p := by
  have hfst : 0 < (l.take j).countP p := by
    rw [List.countP_pos_iff]
    refine ⟨a, List.mem_of_getElem? (?_ : (l.take j)[i]? = some a), ha⟩
    rw [List.getElem?_take_of_lt hlt, hi]
  have hsnd : 0 < (l.drop j).countP p := by
    rw [List.countP_pos_iff]
    refine ⟨b, List.mem_of_getElem? (?_ : (l.drop j)[0]? = some b), hb⟩
    rw [List.getElem?_drop, Nat.add_zero, hj]
  have hsum := @List.countP_append _ p (l.take j) (l.drop j)
  rw [List.take_append_drop] at hsum
  omega

theorem two_le_countP_of_ne {α : Type} {p : α → Bool} {l : List α} {i j : Nat} {a b : α}
    (hne : i ≠ j) (hi : l[i]? = some a) (hj : l[j]? = some b) (ha : p a = true)
    (hb : p b = true) : 2 ≤ l.countP p := by
  rcases Nat.lt_or_gt_of_ne hne with hlt | hgt
  · exact two_le_countP hlt hi hj ha hb
  · exact two_le_countP hgt hj hi hb ha

section Update

variable {c : Nat} {val : Bytes}

theorem ukText_updRow (hs : tab.Shape) (hc : c ∈ tab.ukIdx) {row : Row} (hrow : row ∈ tab.rows) :
    ukText c (if tab.rowMatch stmt row then row.set c val else row) =
      if tab.rowMatch stmt row then
        (if normV RECORD_SIZE val = [] then none else some (normV RECORD_SIZE val))
      else ukText c row := by
  split
  · unfold ukText
    rw [cell_set_self (by rw [hs.cells row hrow]; exact (hs.mem_ukIdx.1 hc).1)]
  · rfl

theorem keyAt_updRows_eq_some (hs : tab.Shape) (hc : c ∈ tab.ukIdx) {i : Nat} {k : Bytes}
    (h : keyAt (ukText c) (tab.updRows stmt c val) i = some k) :
    ∃ row, tab.rows[i]? = some row ∧
      ((tab.rowMatch stmt row = true ∧ k = normV RECORD_SIZE val ∧ k ≠ []) ∨
        (tab.rowMatch stmt row = false ∧ ukText c row = some k)) := by
  unfold keyAt at h
  rw [updRows_getElem?] at h
  obtain ⟨new, hnew, hkey⟩ := Option.bind_eq_some_iff.1 h
  obtain ⟨row, hrow, rfl⟩ := Option.map_eq_some_iff.1 hnew
  rw [ukText_updRow hs hc (List.mem_of_getElem? hrow)] at hkey
  refine ⟨row, hrow, ?_⟩
  split at hkey
  · rename_i hmatch
    split at hkey
    · cases hkey
    · rename_i hne
      cases hkey
      exact Or.inl ⟨hmatch, rfl, hne⟩
  · rename_i hmatch
    exact Or.inr ⟨Bool.eq_false_iff.2 hmatch, hkey⟩

theorem not_distinct_of_two (hs : tab.Shape) (hc : c ∈ tab.ukIdx)
    (htwo : 2 ≤ tab.rows.countP (tab.rowMatch stmt)) (hne : normV RECORD_SIZE val ≠ []) :
    ¬ Distinct (ukText c) (tab.updRows stmt c val) := by
  intro hdis
  have hsub : ((tab.rows.filter (tab.rowMatch stmt)).map fun row =>
      if tab.rowMatch stmt row then row.set c val else row).Sublist (tab.updRows stmt c val) :=
    List.filter_sublist.map _
  have hpair := distinct_iff_pairwise.1 (hdis.sublist hsub)
  rw [List.pairwise_map] at hpair
  rw [List.countP_eq_length_filter] at htwo
  have hkey : ∀ row ∈ tab.rows.filter (tab.rowMatch stmt),
      ukText c (if tab.rowMatch stmt row then row.set c val else row) =
        some (normV RECORD_SIZE val) := by
    intro row hrow
    obtain ⟨hmem, hmatch⟩ := List.mem_filter.1 hrow
    rw [ukText_updRow hs hc hmem, if_pos hmatch, if_neg hne]
  match hlist : tab.rows.filter (tab.rowMatch stmt), htwo, hpair, hkey with
  | [], htwo, _, _ => simp at htwo
  | [_], htwo, _, _ => simp at htwo
  | a :: b :: rest, _, hpair, hkey =>
      have hab := (List.pairwise_cons.1 hpair).1 b List.mem_cons_self
      exact hab _ (hkey a List.mem_cons_self)
        (hkey b (List.mem_cons_of_mem _ List.mem_cons_self))

theorem updRejects_of_held (huk : UkFiled tab.rows tab.ukIdx tab.ukTree)
    (hs : tab.Shape) (hc : c ∈ tab.ukIdx) {i j : Nat} {row other : Row}
    (hrow : tab.rows[i]? = some row) (hmatch : tab.rowMatch stmt row = true) (hne : i ≠ j)
    (hother : tab.rows[j]? = some other) (hheld : ukText c other = some (normV RECORD_SIZE val)) :
    tab.updRejects stmt c val = true := by
  unfold updRejects
  rw [List.any_eq_true]
  refine ⟨i, List.mem_range.2 (List.getElem?_eq_some_iff.1 hrow).1, ?_⟩
  have hget : tab.rows.getD i [] = row := by
    rw [List.getD_eq_getElem?_getD, hrow]
    rfl
  have hdup : tab.chkDupUk c val (some i) = true := by
    unfold chkDupUk
    cases hslot : tab.ukSlot c with
    | none =>
        rw [ukSlot, List.findIdx?_eq_none_iff] at hslot
        simpa using hslot c hc
    | some slot =>
        have hfiled := ukFiled_at huk (ukIdx_of_ukSlot hslot)
        rw [← ukTreeAt] at hfiled
        have hfound := (hfiled.search_eq_some (normV RECORD_SIZE val) j).2
          (by rw [keyAt, hother]; exact hheld)
        have hval : val ≠ [] := by
          rintro rfl
          exact (ukText_eq_some.1 hheld).1 ((ukText_eq_some.1 hheld).2.trans rfl)
        dsimp only
        rw [if_neg hval, hfound]
        simpa using hne
  rw [hget, hmatch, (hs.mem_ukIdx.1 hc).2, hdup]
  rfl

theorem held_of_updRejects (huk : UkFiled tab.rows tab.ukIdx tab.ukTree)
    (h : tab.updRejects stmt c val = true) :
    ∃ row ∈ tab.rows, ukText c row = some (normV RECORD_SIZE val) := by
  obtain ⟨i, -, hall⟩ := List.any_eq_true.1 h
  simp only [Bool.and_eq_true, beq_iff_eq] at hall
  have hdup := hall.2
  unfold chkDupUk at hdup
  split at hdup
  · cases hdup
  · rename_i slot hslot
    split at hdup
    · cases hdup
    · split at hdup
      · cases hdup
      · rename_i j hsearch
        have hfiled := ukFiled_at huk (ukIdx_of_ukSlot hslot)
        rw [← ukTreeAt] at hfiled
        rw [hfiled.search_eq_some] at hsearch
        obtain ⟨other, hother, hkey⟩ := Option.bind_eq_some_iff.1 hsearch
        exact ⟨other, List.mem_of_getElem? hother, hkey⟩

theorem collision_of_not_distinct (hs : tab.Shape) (hidx : tab.IndexOk) (hc : c ∈ tab.ukIdx)
    (hpass : tab.updRejects stmt c val = false)
    (h : ¬ Distinct (ukText c) (tab.updRows stmt c val)) :
    2 ≤ tab.rows.countP (tab.rowMatch stmt) ∧ normV RECORD_SIZE val ≠ [] ∧
      ∀ row ∈ tab.rows, ukText c row ≠ some (normV RECORD_SIZE val) := by
  have hold := hidx.constraints.ukDistinct c hc
  unfold Distinct at h
  push Not at h
  obtain ⟨i, j, k, hi, hj, hne⟩ := h
  obtain ⟨a, ha, hcasea⟩ := keyAt_updRows_eq_some hs hc hi
  obtain ⟨b, hb, hcaseb⟩ := keyAt_updRows_eq_some hs hc hj
  have hbar : ∀ {x y : Nat} {r q : Row}, tab.rows[x]? = some r → tab.rowMatch stmt r = true →
      x ≠ y → tab.rows[y]? = some q → ukText c q ≠ some (normV RECORD_SIZE val) := by
    intro x y r q hr hmatch hxy hq hheld
    rw [updRejects_of_held hidx.uk hs hc hr hmatch hxy hq hheld] at hpass
    cases hpass
  rcases hcasea with ⟨hma, rfl, hk⟩ | ⟨hma, hka⟩
  · rcases hcaseb with ⟨hmb, -, -⟩ | ⟨-, hkb⟩
    · refine ⟨two_le_countP_of_ne hne ha hb hma hmb, hk, ?_⟩
      intro row hrow hheld
      obtain ⟨l, hl⟩ := List.mem_iff_getElem?.1 hrow
      by_cases hil : i = l
      · exact hbar hb hmb (fun hjl => hne (hil.trans hjl.symm)) hl hheld
      · exact hbar ha hma hil hl hheld
    · exact absurd hkb (hbar ha hma hne hb)
  · rcases hcaseb with ⟨hmb, rfl, -⟩ | ⟨-, hkb⟩
    · exact absurd hka (hbar hb hmb (Ne.symm hne) ha)
    · exact absurd (hold i j k (by rw [keyAt, ha]; exact hka) (by rw [keyAt, hb]; exact hkb)) hne

end Update

theorem rebuild_rows (tab : TabVer) (res : DbRes) : (tab.rebuild res).1.rows = tab.rows := by
  generalize hr : tab.rebuild res = r
  obtain ⟨tab', res', ok⟩ := r
  rw [(rebuild_cases hr).1]

/-- What is behind the first loop of `upd_do` fails only by a collision. -/
theorem updSpoils_of_rebuild (hs : tab.Shape) (hidx : tab.IndexOk) {setIdx : Nat}
    (hwhere : stmt.whereConditions ≠ []) (hcol : tab.colIdx stmt.setCol.bytes = some setIdx)
    (hpk : tab.pkIdx ≠ some setIdx)
    (hpass : tab.updRejects stmt setIdx (normV 256 stmt.setVal.bytes) = false)
    (h : (rebuild { tab with rows := tab.updRows stmt setIdx (normV 256 stmt.setVal.bytes) }
      res).2.2 = false) : tab.UpdSpoils stmt := by
  have hbad : ¬ ({ tab with
      rows := tab.updRows stmt setIdx (normV 256 stmt.setVal.bytes) } : TabVer).Constraints := by
    intro hcon
    obtain ⟨new, hnew, -⟩ := rebuild_of_constraints res hcon
    rw [hnew] at h
    cases h
  rw [constraints_updRows hidx.constraints hpk, Classical.not_imp] at hbad
  obtain ⟨htwo, hne, hfree⟩ := collision_of_not_distinct hs hidx hbad.1 hpass hbad.2
  exact ⟨setIdx, hbad.1, hcol, hwhere, htwo, hne, hfree⟩

theorem updDo_spoiled (hs : tab.Shape) (hidx : tab.IndexOk) (h : tab.UpdSpoils stmt) :
    (tab.updDo stmt res).2.2 = false ∧ (tab.updDo stmt res).1.rows ≠ tab.rows := by
  obtain ⟨c, hc, hcol, hwhere, htwo, hne, hfree⟩ := h
  have htype := (hs.mem_ukIdx.1 hc).2
  have hpk : tab.pkIdx ≠ some c := hs.not_pk (by rw [htype]; simp)
  have hpass : ¬ tab.updRejects stmt c (normV 256 stmt.setVal.bytes) = true := by
    intro hrej
    obtain ⟨row, hrow, hheld⟩ := held_of_updRejects hidx.uk hrej
    exact hfree row hrow hheld
  have hdup := not_distinct_of_two hs hc htwo hne
  have hbad : ¬ ({ tab with
      rows := tab.updRows stmt c (normV 256 stmt.setVal.bytes) } : TabVer).Constraints :=
    fun hcon => hdup ((constraints_updRows hidx.constraints hpk).1 hcon hc)
  rw [updDo_eq hwhere hcol hpk (by rw [htype]; simp), if_neg hpass]
  dsimp only
  rw [if_neg (by omega)]
  refine ⟨rebuild_of_not_constraints _ hbad, ?_⟩
  rw [rebuild_rows]
  intro hsame
  have hsame : tab.updRows stmt c (normV 256 stmt.setVal.bytes) = tab.rows := hsame
  rw [hsame] at hdup
  exact hdup (hidx.constraints.ukDistinct c hc)

/-- Every other failure of UPDATE comes before its first change. -/
theorem updDo_clean (hs : tab.Shape) (hidx : tab.IndexOk) (hgood : ¬ tab.UpdSpoils stmt)
    (hfail : (tab.updDo stmt res).2.2 = false) : (tab.updDo stmt res).1 = tab := by
  by_cases hwhere : stmt.whereConditions = []
  · have hun : tab.updDo stmt res = (tab, res.fail .badSql "UPDATE requires WHERE", false) :=
      if_pos hwhere
    rw [hun]
  · generalize hr : tab.updDo stmt res = r at hfail ⊢
    obtain ⟨tab', res', ok⟩ := r
    rcases updDo_cases hr with ⟨-, rfl⟩ | ⟨setIdx, hu⟩
    · rfl
    · rw [updDo_eq hwhere hu.col hu.notPk fun hnn => hu.nn hnn.1 hnn.2] at hr
      by_cases hrej : tab.updRejects stmt setIdx (normV 256 stmt.setVal.bytes) = true
      · rw [if_pos hrej] at hr
        cases hr
        rfl
      · rw [if_neg hrej] at hr
        dsimp only at hr
        split at hr
        · cases hr
          cases hfail
        · have hflag := congrArg (fun r => r.2.2) hr
          exact absurd (updSpoils_of_rebuild hs hidx hwhere hu.col hu.notPk
            (Bool.eq_false_iff.2 hrej) (hflag.trans hfail)) hgood

theorem updDo_clean_iff (hs : tab.Shape) (hidx : tab.IndexOk) :
    ((tab.updDo stmt res).2.2 = false → Unchanged tab (tab.updDo stmt res).1) ↔
      ¬ tab.UpdSpoils stmt := by
  constructor
  · intro hkept hbad
    obtain ⟨hfail, hrows⟩ := updDo_spoiled hs hidx hbad
    exact hrows (hkept hfail).rows
  · intro hgood hfail
    rw [updDo_clean hs hidx hgood hfail]
    exact .refl tab

/-! ## Any statement -/

/-- DELETE fails without a WHERE clause only. -/
theorem delDo_clean (hidx : tab.IndexOk) (h : (tab.delDo stmt res).2.2 = false) :
    (tab.delDo stmt res).1 = tab := by
  unfold delDo at h ⊢
  split
  · rfl
  · rename_i hwhere
    rw [if_neg hwhere] at h
    obtain ⟨new, hnew, -⟩ := rebuild_of_constraints
      { res with count := res.count + tab.rows.countP (tab.rowMatch stmt) }
      (constraints_delRows hidx.constraints stmt)
    dsimp only at h
    rw [hnew] at h
    cases h

/-- A statement that fails leaves the table as it was, exactly when it does not spoil
it. -/
theorem execStmt_clean_iff (hs : tab.Shape) (hidx : tab.IndexOk) (hacc : tab.Accessible) {ok : Bool}
    (h : tab.execStmt stmt res = .ok (tab', res', ok)) :
    (ok = false → Unchanged tab tab') ↔ ¬ tab.Spoils stmt := by
  unfold execStmt at h
  unfold Spoils
  split at h
  · rename_i htype
    have htab : tab = tab' := congrArg Prod.fst (Except.ok.inj h)
    subst htab
    rw [htype]
    exact iff_of_true (fun _ => .refl tab) id
  · rename_i htype
    rw [htype]
    exact insDo_clean_iff hs hidx hacc h
  · rename_i htype
    rw [htype]
    have hupd := @updDo_clean_iff tab stmt res hs hidx
    rw [Except.ok.inj h] at hupd
    exact hupd
  · rename_i htype
    rw [htype]
    refine iff_of_true (fun hok => ?_) id
    have hdel := @delDo_clean tab stmt res hidx
    rw [Except.ok.inj h] at hdel
    rw [show tab' = tab from hdel hok]
    exact .refl tab
  · rename_i htype
    cases h
    rw [htype]
    exact iff_of_true (fun _ => .refl tab) id

end TabVer

end MiniDbms
