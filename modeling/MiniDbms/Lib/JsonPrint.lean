import MiniDbms.Lib.JsonData

/-!
# Printed documents

A document as a program prints it: without blanks, with keys that need no escapes, and with
leaves whose text it knows.  Where each leaf is the text of a value, so is the whole.
-/

namespace MiniDbms

theorem str_append (s t : String) : str s ++ str t = str (s ++ t) := by
  unfold str
  rw [String.toList_append, List.map_append]

theorem str_append_append (s t : String) (rest : Bytes) :
    str s ++ (str t ++ rest) = str (s ++ t) ++ rest := by
  rw [← List.append_assoc, str_append]

namespace Json

inductive Doc
  | leaf (text : Bytes) (data : Data)
  | array (docs : List Doc)
  | object (fields : List (String × Doc))

/-- The text of a key with its colon. -/
def keyText (name : String) : Bytes := str ("\"" ++ name ++ "\":")

/-! ## Text and meaning -/

mutual

def Doc.text : Doc → Bytes
  | .leaf text _ => text
  | .array docs => str "[" ++ (docsText docs ++ str "]")
  | .object fields => str "\x7b" ++ (fieldsText fields ++ str "\x7d")

def docsText : List Doc → Bytes
  | [] => []
  | doc :: docs => doc.text ++ moreDocs docs

def moreDocs : List Doc → Bytes
  | [] => []
  | doc :: docs => str "," ++ (doc.text ++ moreDocs docs)

def fieldsText : List (String × Doc) → Bytes
  | [] => []
  | (name, doc) :: fields => keyText name ++ (doc.text ++ moreFields fields)

def moreFields : List (String × Doc) → Bytes
  | [] => []
  | (name, doc) :: fields => str "," ++ (keyText name ++ (doc.text ++ moreFields fields))

end

mutual

def Doc.data : Doc → Data
  | .leaf _ data => data
  | .array docs => .array (docsData docs)
  | .object fields => .object (fieldsData fields)

def docsData : List Doc → List Data
  | [] => []
  | doc :: docs => doc.data :: docsData docs

def fieldsData : List (String × Doc) → List (Bytes × Data)
  | [] => []
  | (name, doc) :: fields => (str name, doc.data) :: fieldsData fields

end

/-- The text is that of a value, which stands for the data. -/
def Says (text : Bytes) (data : Data) : Prop := ∃ v : Value, v.text = text ∧ v.data = data

mutual

/-- Each leaf is a value, and each key is plain. -/
def Doc.Ok : Doc → Prop
  | .leaf text data => Says text data
  | .array docs => docsOk docs
  | .object fields => fieldsOk fields

def docsOk : List Doc → Prop
  | [] => True
  | doc :: docs => doc.Ok ∧ docsOk docs

def fieldsOk : List (String × Doc) → Prop
  | [] => True
  | (name, doc) :: fields => (str name).all isPlain = true ∧ doc.Ok ∧ fieldsOk fields

end

/-! ## The value -/

/-- A plain byte as a piece of a string. -/
def plainPiece (b : UInt8) : Piece :=
  if h : isPlain b = true then .plain b h else .escape .quote

theorem plainPiece_text {b : UInt8} (h : isPlain b = true) : (plainPiece b).text = [b] := by
  unfold plainPiece
  rw [dif_pos h]
  rfl

theorem plain_text : ∀ {s : Bytes}, s.all isPlain = true →
    (s.map plainPiece).flatMap Piece.text = s
  | [], _ => rfl
  | b :: s, h => by
      rw [List.all_cons, Bool.and_eq_true] at h
      rw [List.map_cons, List.flatMap_cons, plainPiece_text h.1, plain_text h.2]
      rfl

theorem plainPiece_unit {b : UInt8} (h : isPlain b = true) : (plainPiece b).unit = none := by
  unfold plainPiece
  rw [dif_pos h]
  rfl

theorem plain_decode : ∀ {s : Bytes}, s.all isPlain = true → decode (s.map plainPiece) = s
  | [], _ => rfl
  | [b], h => by
      rw [List.all_cons, Bool.and_eq_true] at h
      unfold plainPiece
      rw [List.map_cons, List.map_nil, dif_pos h.1]
      rfl
  | b :: c :: s, h => by
      rw [List.all_cons, Bool.and_eq_true] at h
      have hrest := plain_decode h.2
      rw [List.map_cons] at hrest
      have hpair : surrogates (plainPiece b) (plainPiece c) = none := by
        unfold surrogates
        rw [plainPiece_unit h.1]
      rw [List.map_cons, List.map_cons, decode, hpair]
      simp only [hrest]
      unfold plainPiece
      rw [dif_pos h.1]
      rfl

theorem blanks_nil : ([] : Bytes).all isWs = true := rfl

/-- Between two tokens. -/
def noBlanks : Ws := ⟨[], blanks_nil⟩

def plainMember (name : String) (v : Value) : Member :=
  .mk noBlanks ((str name).map plainPiece) noBlanks noBlanks v noBlanks

theorem plainMember_text {name : String} (h : (str name).all isPlain = true) (v : Value) :
    (plainMember name v).text = keyText name ++ v.text := by
  have hkey : keyText name = 34 :: (str name ++ [34, 58]) := by
    have hopen : str "\"" = [34] := by decide
    have hclose : str "\":" = [34, 58] := by decide
    unfold keyText
    rw [← str_append, ← str_append, hopen, hclose, List.append_assoc, List.singleton_append]
  rw [hkey, plainMember, Member.text, quoted, plain_text h]
  simp [noBlanks]

theorem plainMember_data {name : String} (h : (str name).all isPlain = true) (v : Value) :
    (plainMember name v).data = (str name, v.data) := by
  rw [plainMember, Member.data, plain_decode h]

def plainItem (v : Value) : Item := .mk noBlanks v noBlanks

theorem plainItem_text (v : Value) : (plainItem v).text = v.text := by
  simp [plainItem, Item.text, noBlanks]

mutual

/-- **A printed document is a value that stands for its data.** -/
theorem Doc.Ok.reads : ∀ {doc : Doc}, doc.Ok → Says doc.text doc.data
  | .leaf text data, h => h
  | .array docs, h => by
      obtain ⟨items, htext, hdata⟩ := docs_say h
      refine ⟨.array items noBlanks, ?_, ?_⟩
      · rw [Value.text, Doc.text, htext]
        simp [noBlanks, str]
      · rw [Value.data, Doc.data, hdata]
  | .object fields, h => by
      obtain ⟨members, htext, hdata⟩ := fields_say h
      refine ⟨.object members noBlanks, ?_, ?_⟩
      · rw [Value.text, Doc.text, htext]
        simp [noBlanks, str]
      · rw [Value.data, Doc.data, hdata]

theorem docs_say : ∀ {docs : List Doc}, docsOk docs →
    ∃ items, itemsText items = docsText docs ∧ itemsData items = docsData docs
  | [], _ => ⟨[], rfl, rfl⟩
  | doc :: docs, h => by
      obtain ⟨v, htext, hdata⟩ := h.1.reads
      obtain ⟨items, hmore, hrest⟩ := more_say h.2
      refine ⟨plainItem v :: items, ?_, ?_⟩
      · rw [itemsText, docsText, plainItem_text, htext, hmore]
      · rw [itemsData, docsData, hrest, ← hdata]
        rfl

theorem more_say : ∀ {docs : List Doc}, docsOk docs →
    ∃ items, moreItems items = moreDocs docs ∧ itemsData items = docsData docs
  | [], _ => ⟨[], rfl, rfl⟩
  | doc :: docs, h => by
      obtain ⟨v, htext, hdata⟩ := h.1.reads
      obtain ⟨items, hmore, hrest⟩ := more_say h.2
      refine ⟨plainItem v :: items, ?_, ?_⟩
      · rw [moreItems, moreDocs, plainItem_text, htext, hmore]
        rfl
      · rw [itemsData, docsData, hrest, ← hdata]
        rfl

theorem fields_say : ∀ {fields : List (String × Doc)}, fieldsOk fields →
    ∃ members, membersText members = fieldsText fields ∧ membersData members = fieldsData fields
  | [], _ => ⟨[], rfl, rfl⟩
  | (name, doc) :: fields, h => by
      obtain ⟨v, htext, hdata⟩ := h.2.1.reads
      obtain ⟨members, hmore, hrest⟩ := moreFields_say h.2.2
      refine ⟨plainMember name v :: members, ?_, ?_⟩
      · rw [membersText, fieldsText, plainMember_text h.1, htext, hmore, List.append_assoc]
      · rw [membersData, fieldsData, plainMember_data h.1, hrest, hdata]

theorem moreFields_say : ∀ {fields : List (String × Doc)}, fieldsOk fields →
    ∃ members, moreMembers members = moreFields fields ∧ membersData members = fieldsData fields
  | [], _ => ⟨[], rfl, rfl⟩
  | (name, doc) :: fields, h => by
      obtain ⟨v, htext, hdata⟩ := h.2.1.reads
      obtain ⟨members, hmore, hrest⟩ := moreFields_say h.2.2
      refine ⟨plainMember name v :: members, ?_, ?_⟩
      · rw [moreMembers, moreFields, plainMember_text h.1, htext, hmore, List.append_assoc]
        rfl
      · rw [membersData, fieldsData, plainMember_data h.1, hrest, hdata]

end

theorem docsText_map {α : Type} (f : α → Doc) (a : α) (l : List α) :
    docsText ((a :: l).map f) = (f a).text ++ l.flatMap fun b => str "," ++ (f b).text := by
  have hmore : ∀ l : List α, moreDocs (l.map f) = l.flatMap fun b => str "," ++ (f b).text := by
    intro l
    induction l with
    | nil => rfl
    | cons b l ih => rw [List.map_cons, moreDocs, ih, List.flatMap_cons, List.append_assoc]
  rw [List.map_cons, docsText, hmore]

end Json

end MiniDbms
