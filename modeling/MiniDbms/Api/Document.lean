import MiniDbms.Api.Buffer
import MiniDbms.Api.Encode
import MiniDbms.Db.Number
import MiniDbms.Lib.JsonData

/-!
# A result and its document

The text of `sql_data` is a JSON document, and what the document says is the result: the rows
with their cells in order, the count, and the last id where there is one.
-/

namespace MiniDbms

open Json

/-! ## What the document says -/

def objData (obj : DbObj) : Data := .object (obj.map fun c => (c.1, .string c.2))

def resData (res : DbRes) : Data :=
  .object ([(str "rows", .array (res.rows.map objData)), (str "count", .number res.count)] ++
    if 0 < res.lastId then [(str "last_id", .number res.lastId)] else [])

/-! ## The document -/

theorem printDigits_head : ∀ (fuel n : Nat) (acc : Bytes), 0 < n → n < 10 ^ fuel →
    (printDigits fuel n acc).head? ≠ some 48 := by
  intro fuel
  induction fuel with
  | zero =>
      intro n acc hpos hlt
      rw [pow_zero] at hlt
      omega
  | succ fuel ih =>
      intro n acc hpos hlt
      rw [printDigits]
      by_cases hz : n / 10 = 0
      · have hd : (UInt8.ofNat (48 + n % 10)).toNat = 48 + n % 10 := by
          rw [UInt8.toNat_ofNat']
          omega
        rw [if_pos hz, List.head?_cons]
        intro h
        rw [Option.some.inj h] at hd
        change 48 = 48 + n % 10 at hd
        omega
      · rw [if_neg hz]
        refine ih (n / 10) _ (by omega) ?_
        rw [Nat.div_lt_iff_lt_mul (by omega), ← pow_succ]
        exact hlt

theorem exists_number {n : Int} (hpos : 0 ≤ n) (hhi : n ≤ LONG_MAX) :
    ∃ v : Value, v.text = printL n ∧ v.data = .number n := by
  obtain ⟨ds, hne, -, hds, hval, hprint⟩ :=
    printL_spec (n := n) (by unfold LONG_MIN; omega) hhi
  rw [if_neg (by omega)] at hprint
  have hlead : ds.head? = some 48 → ds = [48] := by
    intro hhead
    by_cases hz : n = 0
    · subst hz
      rw [← hprint]
      decide
    · exfalso
      rw [← hprint, printL, if_neg (by omega)] at hhead
      refine printDigits_head 20 n.natAbs [] (by omega) ?_ hhead
      unfold LONG_MAX at hhi
      omega
  refine ⟨.number ⟨false, ⟨ds, hne, List.all_eq_true.2 hds⟩, hlead, none, none⟩, ?_, ?_⟩
  · simp [Value.text, Number.text, hprint]
  · have hnat : (Digits.val ⟨ds, hne, List.all_eq_true.2 hds⟩ : ℤ) = n := by
      change ((digitsVal ds : ℕ) : ℤ) = n
      rw [hval]
      omega
    have hrat : ((Digits.val ⟨ds, hne, List.all_eq_true.2 hds⟩ : ℕ) : ℚ) = n := by
      exact_mod_cast hnat
    simp [Value.data, Number.value, Number.exponent, hrat]

/-- A text between quotes. -/
def strPieces (text : Bytes) : List Piece := text.map jsnPiece

theorem quoted_strPieces {text : Bytes} (h : ∀ b ∈ text, b ≠ 0) :
    quoted (strPieces text) = bufJsn text := by
  rw [bufJsn_eq, cstr_eq_self h, strPieces]

theorem blank_nil : ([] : Bytes).all isWs = true := rfl

/-- No blanks. -/
def noWs : Ws := ⟨[], blank_nil⟩

@[simp] theorem noWs_bytes : noWs.bytes = [] := rfl

theorem commaSep_items : ∀ values : List Value,
    itemsText (values.map fun v => .mk noWs v noWs) = commaSep (values.map Value.text) := by
  have hmore : ∀ values : List Value, moreItems (values.map fun v => .mk noWs v noWs) =
      (values.map Value.text).flatMap (comma :: ·) := by
    intro values
    induction values with
    | nil => rfl
    | cons v values ih =>
        rw [List.map_cons, moreItems, ih, List.map_cons, List.flatMap_cons]
        simp [Item.text, comma]
  intro values
  cases values with
  | nil => rfl
  | cons v values =>
      rw [List.map_cons, itemsText, hmore, List.map_cons, Buf.commaSep_cons]
      simp [Item.text]

/-- A member that is written without blanks. -/
def member (name : Bytes) (v : Value) : Member := .mk noWs (strPieces name) noWs noWs v noWs

theorem member_text {name : Bytes} (h : ∀ b ∈ name, b ≠ 0) (v : Value) :
    (member name v).text = bufJsn name ++ 58 :: v.text := by
  simp [member, Member.text, quoted_strPieces h]

theorem commaSep_members : ∀ members : List Member,
    membersText members = commaSep (members.map Member.text) := by
  have hmore : ∀ members : List Member, moreMembers members =
      (members.map Member.text).flatMap (comma :: ·) := by
    intro members
    induction members with
    | nil => rfl
    | cons m members ih =>
        rw [moreMembers, ih, List.map_cons, List.flatMap_cons]
        simp [comma]
  intro members
  cases members with
  | nil => rfl
  | cons m members =>
      rw [membersText, hmore, List.map_cons, Buf.commaSep_cons]

/-- The texts of a row hold no NUL. -/
def NulFree (obj : DbObj) : Prop := ∀ c ∈ obj, (∀ b ∈ c.1, b ≠ 0) ∧ ∀ b ∈ c.2, b ≠ 0

def objValue (obj : DbObj) : Value :=
  .object (obj.map fun c => member c.1 (.string (strPieces c.2))) noWs

theorem objValue_text {obj : DbObj} (h : NulFree obj) : (objValue obj).text = addObj obj := by
  unfold objValue addObj
  rw [Value.text, commaSep_members, List.map_map]
  have hcells : obj.map (Member.text ∘ fun c => member c.1 (.string (strPieces c.2))) =
      obj.map fun c => bufJsn c.1 ++ 58 :: bufJsn c.2 := by
    refine List.map_congr_left fun c hc => ?_
    change (member c.1 (.string (strPieces c.2))).text = _
    rw [member_text (h c hc).1, Value.text, quoted_strPieces (h c hc).2]
  rw [hcells]
  simp

theorem membersData_map {α : Type} (f : α → Member) : ∀ items : List α,
    membersData (items.map f) = items.map fun a => (f a).data
  | [] => rfl
  | a :: items => by
      rw [List.map_cons, membersData, membersData_map f items, List.map_cons]

theorem itemsData_map {α : Type} (f : α → Item) : ∀ items : List α,
    itemsData (items.map f) = items.map fun a => (f a).data
  | [] => rfl
  | a :: items => by
      rw [List.map_cons, itemsData, itemsData_map f items, List.map_cons]

theorem objValue_data (obj : DbObj) : (objValue obj).data = objData obj := by
  unfold objValue objData
  rw [Value.data, membersData_map]
  congr 1
  refine List.map_congr_left fun c _ => ?_
  simp [member, Member.data, Value.data, strPieces, decode_jsnPieces]

def rowsValue (rows : List DbObj) : Value :=
  .array ((rows.map objValue).map fun v => .mk noWs v noWs) noWs

theorem rowsValue_text {rows : List DbObj} (h : ∀ obj ∈ rows, NulFree obj) :
    (rowsValue rows).text = addRows rows := by
  unfold rowsValue addRows
  rw [Value.text, commaSep_items, List.map_map]
  have hrows : rows.map (Value.text ∘ objValue) = rows.map addObj :=
    List.map_congr_left fun obj hobj => objValue_text (h obj hobj)
  rw [hrows]
  simp

theorem rowsValue_data (rows : List DbObj) :
    (rowsValue rows).data = .array (rows.map objData) := by
  unfold rowsValue
  rw [Value.data, itemsData_map, List.map_map]
  congr 1
  exact List.map_congr_left fun obj _ => objValue_data obj

theorem sqlData_eq (res : DbRes) :
    sqlData res = 123 :: commaSep ([bufJsn (str "rows") ++ 58 :: addRows res.rows,
      bufJsn (str "count") ++ 58 :: printL res.count] ++
        if 0 < res.lastId then [bufJsn (str "last_id") ++ 58 :: printL res.lastId] else []) ++
          [125] := by
  have hrows : bufJsn (str "rows") ++ [58] = str "\"rows\":" := by decide
  have hcount : comma :: (bufJsn (str "count") ++ [58]) = str ",\"count\":" := by decide
  have hlast : comma :: (bufJsn (str "last_id") ++ [58]) = str ",\"last_id\":" := by decide
  unfold sqlData
  rw [← hrows, ← hcount, ← hlast]
  by_cases hpos : 0 < res.lastId
  · rw [if_pos hpos, if_pos hpos]
    simp [commaSep]
  · rw [if_neg hpos, if_neg hpos]
    simp [commaSep]

/-- There is a document with the text of the result, and it says what the result holds. -/
theorem exists_document {res : DbRes} (hrows : ∀ obj ∈ res.rows, NulFree obj)
    (hcount : (res.count : Int) ≤ LONG_MAX) (hlast : res.lastId ≤ LONG_MAX) :
    ∃ v : Value, v.text = sqlData res ∧ v.data = resData res := by
  have hname : ∀ {name : Bytes} {v : Value} {t : Bytes}, (∀ b ∈ name, b ≠ 0) → v.text = t →
      (member name v).text = bufJsn name ++ 58 :: t := by
    intro name v t hnul htext
    rw [member_text hnul, htext]
  have hdata : ∀ {name : Bytes} {v : Value} {d : Data}, v.data = d →
      (member name v).data = (name, d) := by
    intro name v d hd
    rw [member, Member.data, strPieces, decode_jsnPieces, hd]
  obtain ⟨count, hcountText, hcountData⟩ := exists_number (Int.natCast_nonneg _) hcount
  by_cases hpos : 0 < res.lastId
  · obtain ⟨last, hlastText, hlastData⟩ := exists_number (le_of_lt hpos) hlast
    refine ⟨.object [member (str "rows") (rowsValue res.rows),
      member (str "count") count, member (str "last_id") last] noWs, ?_, ?_⟩
    · rw [Value.text, commaSep_members, List.map_cons, List.map_cons, List.map_cons, List.map_nil,
        hname (by decide +kernel) (rowsValue_text hrows), hname (by decide +kernel) hcountText,
        hname (by decide +kernel) hlastText, sqlData_eq, if_pos hpos]
      simp
    · unfold resData
      rw [Value.data, membersData, membersData, membersData, membersData,
        hdata (rowsValue_data res.rows), hdata hcountData,
        hdata hlastData, if_pos hpos]
      simp
  · refine ⟨.object [member (str "rows") (rowsValue res.rows),
      member (str "count") count] noWs, ?_, ?_⟩
    · rw [Value.text, commaSep_members, List.map_cons, List.map_cons, List.map_nil,
        hname (by decide +kernel) (rowsValue_text hrows), hname (by decide +kernel) hcountText, sqlData_eq,
        if_neg hpos]
      simp
    · unfold resData
      rw [Value.data, membersData, membersData, membersData,
        hdata (rowsValue_data res.rows), hdata hcountData, if_neg hpos]
      simp

/-- The dumped text is a JSON document, and whoever reads it gets the rows, the count and the
last id. -/
theorem dump_says_result (res : DbRes) (hrows : ∀ obj ∈ res.rows, NulFree obj)
    (hcount : res.count < 2 ^ 31) (hlast : res.lastId ≤ LONG_MAX) :
    ∃ text, Buf.sqlDataDump res = some (text, text.length) ∧ (∃ v : Value, v.text = text) ∧
      ∀ v : Value, v.text = text → v.data = resData res := by
  have hlong : (res.count : Int) ≤ LONG_MAX := by
    unfold LONG_MAX
    omega
  obtain ⟨v, htext, hdata⟩ := exists_document hrows hlong hlast
  refine ⟨sqlData res, Buf.sqlDataDump_eq res, ⟨v, htext⟩, fun v' htext' => ?_⟩
  rw [← hdata]
  exact data_unique (htext'.trans htext.symm)

theorem dump_says_quoted_cell :
    ∃ text, Buf.sqlDataDump ⟨[[(str "na\"me", [1, 34, 92, 200])]], 1, 7, 0, none⟩ =
        some (text, text.length) ∧ (∃ v : Value, v.text = text) ∧
      ∀ v : Value, v.text = text →
        v.data = resData ⟨[[(str "na\"me", [1, 34, 92, 200])]], 1, 7, 0, none⟩ :=
  dump_says_result _ (by unfold NulFree; decide +kernel) (by decide) (by decide)

end MiniDbms
