import MiniDbms.Lib.Json
import MiniDbms.Lib.Lists
import Mathlib.Algebra.Order.Field.Rat

/-!
# What a JSON document says

The data of a document, and that its text can be read in one way only.
-/

namespace MiniDbms.Json

inductive Data
  | null
  | bool (b : Bool)
  | number (q : ℚ)
  | string (s : Bytes)
  | array (items : List Data)
  | object (members : List (Bytes × Data))

def Digits.val (d : Digits) : Nat := d.bytes.foldl (fun n b => n * 10 + (b.toNat - 48)) 0

def Number.exponent (n : Number) : Int :=
  match n.exp with
  | none => 0
  | some (_, .minus, digits) => -digits.val
  | some (_, _, digits) => digits.val

def Number.value (n : Number) : ℚ :=
  (if n.negative then -1 else 1) *
    (n.int.val + (match n.frac with
      | none => 0
      | some digits => digits.val / 10 ^ digits.bytes.length)) * 10 ^ n.exponent

def Literal.data : Literal → Data
  | .true => .bool Bool.true
  | .false => .bool Bool.false
  | .null => .null

mutual

def Value.data : Value → Data
  | .literal l => l.data
  | .number n => .number n.value
  | .string s => .string (decode s)
  | .array items _ => .array (itemsData items)
  | .object members _ => .object (membersData members)

def Item.data : Item → Data
  | .mk _ value _ => value.data

def Member.data : Member → Bytes × Data
  | .mk _ name _ _ value _ => (decode name, value.data)

def itemsData : List Item → List Data
  | [] => []
  | item :: items => item.data :: itemsData items

def membersData : List Member → List (Bytes × Data)
  | [] => []
  | m :: members => m.data :: membersData members

end

/-! ## White space -/

def skip (s : Bytes) : Bytes := s.dropWhile isWs

theorem skip_ws (ws : Ws) (s : Bytes) : skip (ws.bytes ++ s) = skip s := by
  unfold skip
  rw [List.dropWhile_append_of_pos fun c hc => List.all_eq_true.1 ws.blank c hc]

theorem skip_cons {c : UInt8} {s : Bytes} (hc : isWs c = false) : skip (c :: s) = c :: s :=
  List.dropWhile_cons_of_neg (by simp [hc])

/-! ## Strings -/

theorem letter_inj {e e' : Escape} (h : e.letter = e'.letter) : e = e' := by
  cases e <;> cases e' <;> first | rfl | exact absurd h (by decide)

theorem letter_ne (e : Escape) : e.letter ≠ 117 := by
  cases e <;> decide

theorem HexDigit.eq {d d' : HexDigit} (h : d.byte = d'.byte) : d = d' := by
  cases d
  cases d'
  simp only at h
  subst h
  rfl

theorem pieces_unique : ∀ (s s' : List Piece) {r r' : Bytes},
    s.flatMap Piece.text ++ 34 :: r = s'.flatMap Piece.text ++ 34 :: r' → s = s' ∧ r = r'
  | [], [], r, r', h => ⟨rfl, (List.cons.inj h).2⟩
  | [], p :: s', r, r', h => by
      exfalso
      rw [List.flatMap_cons] at h
      cases p with
      | plain b hb =>
          have hq : 34 = b := (List.cons.inj h).1
          subst hq
          exact absurd hb (by decide)
      | escape e => exact absurd (List.cons.inj h).1 (by decide)
      | unicode a b c d => exact absurd (List.cons.inj h).1 (by decide)
  | p :: s, [], r, r', h => by
      exfalso
      rw [List.flatMap_cons] at h
      cases p with
      | plain b hb =>
          have hq : b = 34 := (List.cons.inj h).1
          subst hq
          exact absurd hb (by decide)
      | escape e => exact absurd (List.cons.inj h).1 (by decide)
      | unicode a b c d => exact absurd (List.cons.inj h).1 (by decide)
  | p :: s, p' :: s', r, r', h => by
      rw [List.flatMap_cons, List.flatMap_cons, List.append_assoc, List.append_assoc] at h
      have hnext : p = p' → s.flatMap Piece.text ++ 34 :: r = s'.flatMap Piece.text ++ 34 :: r' →
          p :: s = p' :: s' ∧ r = r' := by
        rintro rfl hrest
        obtain ⟨rfl, hr⟩ := pieces_unique s s' hrest
        exact ⟨rfl, hr⟩
      cases p with
      | plain b hb =>
          cases p' with
          | plain b' hb' =>
              obtain ⟨rfl, hrest⟩ := List.cons.inj h
              exact hnext rfl hrest
          | escape e' =>
              have hq : b = 92 := (List.cons.inj h).1
              subst hq
              exact absurd hb (by decide)
          | unicode a' b' c' d' =>
              have hq : b = 92 := (List.cons.inj h).1
              subst hq
              exact absurd hb (by decide)
      | escape e =>
          cases p' with
          | plain b' hb' =>
              have hq : 92 = b' := (List.cons.inj h).1
              subst hq
              exact absurd hb' (by decide)
          | escape e' =>
              obtain ⟨hletter, hrest⟩ := List.cons.inj (List.cons.inj h).2
              exact hnext (by rw [letter_inj hletter]) hrest
          | unicode a' b' c' d' =>
              exact absurd (List.cons.inj (List.cons.inj h).2).1 (letter_ne e)
      | unicode a b c d =>
          cases p' with
          | plain b' hb' =>
              have hq : 92 = b' := (List.cons.inj h).1
              subst hq
              exact absurd hb' (by decide)
          | escape e' =>
              exact absurd (List.cons.inj (List.cons.inj h).2).1.symm (letter_ne e')
          | unicode a' b' c' d' =>
              obtain ⟨ha, h⟩ := List.cons.inj (List.cons.inj (List.cons.inj h).2).2
              obtain ⟨hb, h⟩ := List.cons.inj h
              obtain ⟨hc, h⟩ := List.cons.inj h
              obtain ⟨hd, hrest⟩ := List.cons.inj h
              refine hnext ?_ hrest
              rw [HexDigit.eq ha, HexDigit.eq hb, HexDigit.eq hc, HexDigit.eq hd]

theorem quoted_unique {s s' : List Piece} {r r' : Bytes} (h : quoted s ++ r = quoted s' ++ r') :
    s = s' ∧ r = r' := by
  unfold quoted at h
  rw [List.cons_append, List.cons_append, List.append_assoc, List.append_assoc] at h
  exact pieces_unique s s' (List.cons.inj h).2

/-! ## Numbers -/

/-- A byte that may go on with a number. -/
def isNumeric (b : UInt8) : Bool := isDigit b || b == 46 || b == 69 || b == 101

/-- What follows a number does not go on with it. -/
def Ended (r : Bytes) : Prop := ∀ c ∈ r.head?, isNumeric c = false

theorem Ended.notDigit {r : Bytes} (h : Ended r) : ∀ c ∈ r.head?, isDigit c = false := by
  intro c hc
  have hend := h c hc
  simp only [isNumeric, Bool.or_eq_false_iff] at hend
  exact hend.1.1.1

theorem Ended.ws {r : Bytes} (h : Ended r) (ws : Ws) : Ended (ws.bytes ++ r) := by
  intro c hc
  cases hws : ws.bytes with
  | nil =>
      rw [hws] at hc
      exact h c hc
  | cons b bs =>
      rw [hws] at hc
      obtain rfl : b = c := Option.some.inj hc
      have hblank := List.all_eq_true.1 ws.blank b (by rw [hws]; exact List.mem_cons_self)
      have hall : ∀ b : UInt8, isWs b = true → isNumeric b = false :=
        forall_byte (by decide +kernel)
      exact hall b hblank

theorem span_unique {p : UInt8 → Bool} {a a' r r' : Bytes} (ha : a.all p = true)
    (ha' : a'.all p = true) (hr : ∀ c ∈ r.head?, p c = false) (hr' : ∀ c ∈ r'.head?, p c = false)
    (h : a ++ r = a' ++ r') : a = a' ∧ r = r' := by
  obtain ⟨htake, hdrop⟩ := span_append ha hr
  obtain ⟨htake', hdrop'⟩ := span_append ha' hr'
  rw [h] at htake hdrop
  exact ⟨htake.symm.trans htake', hdrop.symm.trans hdrop'⟩

theorem Digits.eq {d d' : Digits} (h : d.bytes = d'.bytes) : d = d' := by
  cases d
  cases d'
  simp only at h
  subst h
  rfl

theorem digits_unique {d d' : Digits} {r r' : Bytes} (hr : ∀ c ∈ r.head?, isDigit c = false)
    (hr' : ∀ c ∈ r'.head?, isDigit c = false) (h : d.bytes ++ r = d'.bytes ++ r') :
    d = d' ∧ r = r' := by
  obtain ⟨hd, hrest⟩ := span_unique d.digits.2 d'.digits.2 hr hr' h
  exact ⟨Digits.eq hd, hrest⟩

theorem digits_head (d : Digits) (r : Bytes) : ∃ c rest, d.bytes ++ r = c :: rest ∧
    isDigit c = true := by
  obtain ⟨c, rest, hd⟩ := List.exists_cons_of_ne_nil d.digits.1
  refine ⟨c, rest ++ r, by rw [hd, List.cons_append], ?_⟩
  exact List.all_eq_true.1 d.digits.2 c (by rw [hd]; exact List.mem_cons_self)

def fracText (frac : Option Digits) : Bytes :=
  match frac with
  | some digits => 46 :: digits.bytes
  | none => []

def expText (exp : Option (Bool × Sign × Digits)) : Bytes :=
  match exp with
  | some (upper, sign, digits) => (if upper then 69 else 101) :: (sign.text ++ digits.bytes)
  | none => []

theorem sign_unique {sign sign' : Sign} {d d' : Digits} {r r' : Bytes}
    (hr : ∀ c ∈ r.head?, isDigit c = false) (hr' : ∀ c ∈ r'.head?, isDigit c = false)
    (h : sign.text ++ (d.bytes ++ r) = sign'.text ++ (d'.bytes ++ r')) :
    sign = sign' ∧ d = d' ∧ r = r' := by
  obtain ⟨c, t, hd, hc⟩ := digits_head d r
  obtain ⟨c', t', hd', hc'⟩ := digits_head d' r'
  have hsign : sign = sign' := by
    rw [hd, hd'] at h
    have hhead := congrArg List.head? h
    cases sign <;> cases sign' <;> simp [Sign.text] at hhead <;>
      first
        | rfl
        | (subst hhead; exact absurd hc (by decide))
        | (subst hhead; exact absurd hc' (by decide))
  subst hsign
  exact ⟨rfl, digits_unique hr hr' (List.append_cancel_left h)⟩

theorem exp_head {exp : Option (Bool × Sign × Digits)} {r : Bytes} (hr : Ended r) :
    ∀ c ∈ (expText exp ++ r).head?, isDigit c = false ∧ c ≠ 46 := by
  intro c hc
  cases exp with
  | none =>
      have hend := hr c hc
      simp only [isNumeric, Bool.or_eq_false_iff, beq_eq_false_iff_ne] at hend
      exact ⟨hend.1.1.1, hend.1.1.2⟩
  | some e =>
      obtain ⟨upper, sign, d⟩ := e
      cases upper <;> obtain rfl := Option.some.inj hc <;> decide

theorem exp_unique {exp exp' : Option (Bool × Sign × Digits)} {r r' : Bytes} (hr : Ended r)
    (hr' : Ended r') (h : expText exp ++ r = expText exp' ++ r') : exp = exp' ∧ r = r' := by
  have hno : ∀ {e : Bool × Sign × Digits} {s t : Bytes}, Ended s → expText (some e) ++ t ≠ s := by
    rintro ⟨upper, sign, d⟩ s t hs rfl
    have hend := hs _ rfl
    cases upper <;> exact absurd hend (by decide)
  cases exp with
  | none =>
      cases exp' with
      | none => exact ⟨rfl, h⟩
      | some e' => exact absurd h.symm (hno hr)
  | some e =>
      cases exp' with
      | none => exact absurd h (hno hr')
      | some e' =>
          obtain ⟨upper, sign, d⟩ := e
          obtain ⟨upper', sign', d'⟩ := e'
          simp only [expText, List.cons_append, List.append_assoc, List.cons.injEq] at h
          obtain ⟨hupper, h⟩ := h
          have hcase : upper = upper' := by
            cases upper <;> cases upper' <;> first | rfl | exact absurd hupper (by decide)
          obtain ⟨rfl, rfl, hrest⟩ := sign_unique hr.notDigit hr'.notDigit h
          exact ⟨by rw [hcase], hrest⟩

theorem frac_head {frac : Option Digits} {exp : Option (Bool × Sign × Digits)} {r : Bytes}
    (hr : Ended r) : ∀ c ∈ (fracText frac ++ (expText exp ++ r)).head?, isDigit c = false := by
  intro c hc
  cases frac with
  | none => exact (exp_head hr c hc).1
  | some d =>
      obtain rfl := Option.some.inj hc
      decide

theorem frac_unique {frac frac' : Option Digits} {exp exp' : Option (Bool × Sign × Digits)}
    {r r' : Bytes} (hr : Ended r) (hr' : Ended r')
    (h : fracText frac ++ (expText exp ++ r) = fracText frac' ++ (expText exp' ++ r')) :
    frac = frac' ∧ expText exp ++ r = expText exp' ++ r' := by
  have hexp := fun c hc => (@exp_head exp r hr c hc).1
  have hexp' := fun c hc => (@exp_head exp' r' hr' c hc).1
  cases frac with
  | none =>
      cases frac' with
      | none => exact ⟨rfl, h⟩
      | some d' =>
          have hpoint : expText exp ++ r = 46 :: (d'.bytes ++ (expText exp' ++ r')) := h
          exact absurd rfl (exp_head hr 46 (by rw [hpoint]; rfl)).2
  | some d =>
      cases frac' with
      | none =>
          have hpoint : 46 :: (d.bytes ++ (expText exp ++ r)) = expText exp' ++ r' := h
          exact absurd rfl (exp_head hr' 46 (by rw [← hpoint]; rfl)).2
      | some d' =>
          obtain ⟨rfl, hrest⟩ := digits_unique hexp hexp' (List.cons.inj h).2
          exact ⟨rfl, hrest⟩

theorem Number.text_eq (n : Number) (r : Bytes) : n.text ++ r =
    (if n.negative then [45] else []) ++
      (n.int.bytes ++ (fracText n.frac ++ (expText n.exp ++ r))) := by
  simp only [Number.text, List.append_assoc]
  rfl

theorem number_unique {n n' : Number} {r r' : Bytes} (hr : Ended r) (hr' : Ended r')
    (h : n.text ++ r = n'.text ++ r') : n = n' ∧ r = r' := by
  rw [Number.text_eq, Number.text_eq] at h
  obtain ⟨c, t, hint, hc⟩ := digits_head n.int (fracText n.frac ++ (expText n.exp ++ r))
  obtain ⟨c', t', hint', hc'⟩ := digits_head n'.int (fracText n'.frac ++ (expText n'.exp ++ r'))
  have hneg : n.negative = n'.negative := by
    rw [hint, hint'] at h
    have hhead := congrArg List.head? h
    cases hn : n.negative <;> cases hn' : n'.negative <;> simp [hn, hn'] at hhead <;>
      first
        | rfl
        | (subst hhead; exact absurd hc (by decide))
        | (subst hhead; exact absurd hc' (by decide))
  rw [hneg] at h
  obtain ⟨hi, h⟩ := digits_unique (frac_head hr) (frac_head hr') (List.append_cancel_left h)
  obtain ⟨hf, h⟩ := frac_unique hr hr' h
  obtain ⟨he, h⟩ := exp_unique hr hr' h
  refine ⟨?_, h⟩
  cases n
  cases n'
  simp only at hneg hi hf he
  subst hneg hi hf he
  rfl

/-! ## Values -/

/-- What kind of value starts with a byte. -/
inductive Kind
  | literal (l : Literal)
  | number
  | string
  | array
  | object
deriving DecidableEq

def kindOf (b : UInt8) : Option Kind :=
  if b = 116 then some (.literal .true)
  else if b = 102 then some (.literal .false)
  else if b = 110 then some (.literal .null)
  else if b = 45 ∨ isDigit b = true then some .number
  else if b = 34 then some .string
  else if b = 91 then some .array
  else if b = 123 then some .object
  else none

def Value.kind : Value → Kind
  | .literal l => .literal l
  | .number _ => .number
  | .string _ => .string
  | .array _ _ => .array
  | .object _ _ => .object

theorem kindOf_digit {b : UInt8} (hb : isDigit b = true) : kindOf b = some .number := by
  have hall : ∀ b : UInt8, isDigit b = true → kindOf b = some .number :=
    forall_byte (by decide +kernel)
  exact hall b hb

theorem Value.head (v : Value) (r : Bytes) :
    ∃ c rest, v.text ++ r = c :: rest ∧ kindOf c = some v.kind := by
  cases v with
  | literal l => cases l <;> exact ⟨_, _, rfl, rfl⟩
  | number n =>
      rw [Value.text, Number.text_eq]
      obtain ⟨c, t, hint, hc⟩ := digits_head n.int (fracText n.frac ++ (expText n.exp ++ r))
      rw [hint]
      cases n.negative with
      | true => exact ⟨45, c :: t, rfl, rfl⟩
      | false => exact ⟨c, t, rfl, kindOf_digit hc⟩
  | string s => exact ⟨34, _, rfl, rfl⟩
  | array items blank => exact ⟨91, _, by rw [Value.text]; rfl, rfl⟩
  | object members blank => exact ⟨123, _, by rw [Value.text]; rfl, rfl⟩

theorem kind_unique {v v' : Value} {r r' : Bytes} (h : v.text ++ r = v'.text ++ r') :
    v.kind = v'.kind := by
  obtain ⟨c, t, hc, hk⟩ := v.head r
  obtain ⟨c', t', hc', hk'⟩ := v'.head r'
  rw [hc, hc'] at h
  rw [(List.cons.inj h).1, hk'] at hk
  exact (Option.some.inj hk).symm

theorem kindOf_some {b : UInt8} {k : Kind} (h : kindOf b = some k) :
    isWs b = false ∧ b ≠ 93 ∧ b ≠ 125 ∧ b ≠ 44 ∧ b ≠ 58 := by
  have hall : ∀ b : UInt8, (kindOf b).isSome = true →
      isWs b = false ∧ b ≠ 93 ∧ b ≠ 125 ∧ b ≠ 44 ∧ b ≠ 58 := forall_byte (by decide +kernel)
  exact hall b (by rw [h]; rfl)

theorem skip_value (v : Value) (r : Bytes) : skip (v.text ++ r) = v.text ++ r := by
  obtain ⟨c, t, hc, hk⟩ := v.head r
  rw [hc]
  exact skip_cons (kindOf_some hk).1

theorem ended_cons {c : UInt8} {s : Bytes} (hc : isNumeric c = false) : Ended (c :: s) := by
  intro b hb
  obtain rfl := Option.some.inj hb
  exact hc

/-- What follows the items of an array. -/
def closing (items : List Item) (blank : Ws) (r : Bytes) : Bytes :=
  moreItems items ++ (blank.bytes ++ 93 :: r)

/-- What follows the members of an object. -/
def closingMembers (members : List Member) (blank : Ws) (r : Bytes) : Bytes :=
  moreMembers members ++ (blank.bytes ++ 125 :: r)

theorem ended_closing (items : List Item) (blank : Ws) (r : Bytes) :
    Ended (closing items blank r) := by
  cases items with
  | nil => exact (ended_cons (by decide)).ws blank
  | cons item items =>
      rw [closing, moreItems, List.cons_append]
      exact ended_cons (by decide)

theorem ended_closingMembers (members : List Member) (blank : Ws) (r : Bytes) :
    Ended (closingMembers members blank r) := by
  cases members with
  | nil => exact (ended_cons (by decide)).ws blank
  | cons m members =>
      rw [closingMembers, moreMembers, List.cons_append]
      exact ended_cons (by decide)

theorem Item.text_append (before after : Ws) (value : Value) (s : Bytes) :
    (Item.mk before value after).text ++ s =
      before.bytes ++ (value.text ++ (after.bytes ++ s)) := by
  rw [Item.text, List.append_assoc, List.append_assoc]

theorem Member.text_append (before afterName beforeValue after : Ws) (name : List Piece)
    (value : Value) (s : Bytes) :
    (Member.mk before name afterName beforeValue value after).text ++ s =
      before.bytes ++ (quoted name ++ (afterName.bytes ++
        58 :: (beforeValue.bytes ++ (value.text ++ (after.bytes ++ s))))) := by
  simp only [Member.text, List.append_assoc, List.cons_append]

theorem skip_quoted (s : List Piece) (r : Bytes) : skip (quoted s ++ r) = quoted s ++ r :=
  skip_cons (by decide)

theorem skip_closing (after : Ws) (items : List Item) (blank : Ws) (r : Bytes) :
    skip (after.bytes ++ closing items blank r) =
      match items with
      | [] => 93 :: r
      | item :: items => 44 :: (item.text ++ closing items blank r) := by
  rw [skip_ws]
  cases items with
  | nil =>
      rw [closing, moreItems, List.nil_append, skip_ws]
      exact skip_cons (by decide)
  | cons item items =>
      rw [closing, moreItems, List.cons_append, List.append_assoc]
      exact skip_cons (by decide)

theorem skip_closingMembers (after : Ws) (members : List Member) (blank : Ws) (r : Bytes) :
    skip (after.bytes ++ closingMembers members blank r) =
      match members with
      | [] => 125 :: r
      | m :: members => 44 :: (m.text ++ closingMembers members blank r) := by
  rw [skip_ws]
  cases members with
  | nil =>
      rw [closingMembers, moreMembers, List.nil_append, skip_ws]
      exact skip_cons (by decide)
  | cons m members =>
      rw [closingMembers, moreMembers, List.cons_append, List.append_assoc]
      exact skip_cons (by decide)

mutual

theorem value_unique : ∀ (v v' : Value) {r r' : Bytes}, Ended r → Ended r' →
    v.text ++ r = v'.text ++ r' → v.data = v'.data ∧ r = r'
  | .literal l, v', r, r', hr, hr', h => by
      have hkind := kind_unique h
      cases v' with
      | literal l' =>
          obtain rfl : l = l' := Kind.literal.inj hkind
          exact ⟨rfl, List.append_cancel_left h⟩
      | _ => exact absurd hkind (by simp [Value.kind])
  | .number n, v', r, r', hr, hr', h => by
      have hkind := kind_unique h
      cases v' with
      | number n' =>
          rw [Value.text, Value.text] at h
          obtain ⟨rfl, hrest⟩ := number_unique hr hr' h
          exact ⟨rfl, hrest⟩
      | _ => exact absurd hkind (by simp [Value.kind])
  | .string s, v', r, r', hr, hr', h => by
      have hkind := kind_unique h
      cases v' with
      | string s' =>
          rw [Value.text, Value.text] at h
          obtain ⟨rfl, hrest⟩ := quoted_unique h
          exact ⟨rfl, hrest⟩
      | _ => exact absurd hkind (by simp [Value.kind])
  | .array items blank, v', r, r', hr, hr', h => by
      have hkind := kind_unique h
      cases v' with
      | array items' blank' =>
          rw [Value.text, Value.text] at h
          simp only [List.cons_append, List.append_assoc, List.cons.injEq, true_and,
            List.nil_append] at h
          obtain ⟨hdata, hrest⟩ := items_unique items items' h
          rw [Value.data, Value.data, hdata]
          exact ⟨rfl, hrest⟩
      | _ => exact absurd hkind (by simp [Value.kind])
  | .object members blank, v', r, r', hr, hr', h => by
      have hkind := kind_unique h
      cases v' with
      | object members' blank' =>
          rw [Value.text, Value.text] at h
          simp only [List.cons_append, List.append_assoc, List.cons.injEq, true_and,
            List.nil_append] at h
          obtain ⟨hdata, hrest⟩ := members_unique members members' h
          rw [Value.data, Value.data, hdata]
          exact ⟨rfl, hrest⟩
      | _ => exact absurd hkind (by simp [Value.kind])

theorem items_unique : ∀ (items items' : List Item) {blank blank' : Ws} {r r' : Bytes},
    itemsText items ++ (blank.bytes ++ 93 :: r) = itemsText items' ++ (blank'.bytes ++ 93 :: r') →
      itemsData items = itemsData items' ∧ r = r'
  | [], items', blank, blank', r, r', h => by
      have hskip := congrArg skip h
      rw [itemsText, List.nil_append, skip_ws, skip_cons (by decide)] at hskip
      cases items' with
      | nil =>
          rw [itemsText, List.nil_append, skip_ws, skip_cons (by decide)] at hskip
          exact ⟨rfl, (List.cons.inj hskip).2⟩
      | cons item' items' =>
          obtain ⟨before', value', after'⟩ := item'
          rw [itemsText, List.append_assoc, Item.text_append, skip_ws, skip_value] at hskip
          obtain ⟨c, t, hc, hk⟩ := value'.head
            (after'.bytes ++ (moreItems items' ++ (blank'.bytes ++ 93 :: r')))
          rw [hc] at hskip
          exact absurd (List.cons.inj hskip).1.symm (kindOf_some hk).2.1
  | .mk before value after :: items, items', blank, blank', r, r', h => by
      have hskip := congrArg skip h
      rw [itemsText, List.append_assoc, Item.text_append, skip_ws, skip_value] at hskip
      cases items' with
      | nil =>
          rw [itemsText, List.nil_append, skip_ws, skip_cons (by decide)] at hskip
          obtain ⟨c, t, hc, hk⟩ := value.head
            (after.bytes ++ (moreItems items ++ (blank.bytes ++ 93 :: r)))
          rw [hc] at hskip
          exact absurd (List.cons.inj hskip).1 (kindOf_some hk).2.1
      | cons item' items' =>
          obtain ⟨before', value', after'⟩ := item'
          rw [itemsText, List.append_assoc, Item.text_append, skip_ws, skip_value] at hskip
          obtain ⟨hdata, hclose⟩ := value_unique value value'
            ((ended_closing items blank r).ws after) ((ended_closing items' blank' r').ws after')
            hskip
          obtain ⟨hitems, hrest⟩ := more_unique items items' hclose
          rw [itemsData, itemsData, Item.data, Item.data, hdata, hitems]
          exact ⟨rfl, hrest⟩

theorem more_unique : ∀ (items items' : List Item) {after after' blank blank' : Ws}
    {r r' : Bytes},
    after.bytes ++ closing items blank r = after'.bytes ++ closing items' blank' r' →
      itemsData items = itemsData items' ∧ r = r'
  | [], items', after, after', blank, blank', r, r', h => by
      have hskip := congrArg skip h
      rw [skip_closing, skip_closing] at hskip
      cases items' with
      | nil => exact ⟨rfl, (List.cons.inj hskip).2⟩
      | cons item' items' => exact absurd (List.cons.inj hskip).1 (by decide)
  | .mk before value after₁ :: items, items', after, after', blank, blank', r, r', h => by
      have hskip := congrArg skip h
      rw [skip_closing, skip_closing] at hskip
      cases items' with
      | nil => exact absurd (List.cons.inj hskip).1 (by decide)
      | cons item' items' =>
          obtain ⟨before', value', after₁'⟩ := item'
          have hitem := congrArg skip (List.cons.inj hskip).2
          rw [Item.text_append, Item.text_append, skip_ws, skip_ws, skip_value, skip_value] at hitem
          obtain ⟨hdata, hclose⟩ := value_unique value value'
            ((ended_closing items blank r).ws after₁) ((ended_closing items' blank' r').ws after₁')
            hitem
          obtain ⟨hitems, hrest⟩ := more_unique items items' hclose
          rw [itemsData, itemsData, Item.data, Item.data, hdata, hitems]
          exact ⟨rfl, hrest⟩

theorem members_unique : ∀ (members members' : List Member) {blank blank' : Ws} {r r' : Bytes},
    membersText members ++ (blank.bytes ++ 125 :: r) =
        membersText members' ++ (blank'.bytes ++ 125 :: r') →
      membersData members = membersData members' ∧ r = r'
  | [], members', blank, blank', r, r', h => by
      have hskip := congrArg skip h
      rw [membersText, List.nil_append, skip_ws, skip_cons (by decide)] at hskip
      cases members' with
      | nil =>
          rw [membersText, List.nil_append, skip_ws, skip_cons (by decide)] at hskip
          exact ⟨rfl, (List.cons.inj hskip).2⟩
      | cons m' members' =>
          obtain ⟨before', name', afterName', beforeValue', value', after'⟩ := m'
          rw [membersText, List.append_assoc, Member.text_append, skip_ws, skip_quoted] at hskip
          exact absurd (List.cons.inj hskip).1 (by decide)
  | .mk before name afterName beforeValue value after :: members, members', blank, blank', r, r',
      h => by
      have hskip := congrArg skip h
      rw [membersText, List.append_assoc, Member.text_append, skip_ws, skip_quoted] at hskip
      cases members' with
      | nil =>
          rw [membersText, List.nil_append, skip_ws, skip_cons (by decide)] at hskip
          exact absurd (List.cons.inj hskip).1 (by decide)
      | cons m' members' =>
          obtain ⟨before', name', afterName', beforeValue', value', after'⟩ := m'
          rw [membersText, List.append_assoc, Member.text_append, skip_ws, skip_quoted] at hskip
          obtain ⟨rfl, hcolon⟩ := quoted_unique hskip
          have hvalue := congrArg skip hcolon
          rw [skip_ws, skip_ws, skip_cons (by decide), skip_cons (by decide)] at hvalue
          have hvalue := congrArg skip (List.cons.inj hvalue).2
          rw [skip_ws, skip_ws, skip_value, skip_value] at hvalue
          obtain ⟨hdata, hclose⟩ := value_unique value value'
            ((ended_closingMembers members blank r).ws after)
            ((ended_closingMembers members' blank' r').ws after') hvalue
          obtain ⟨hmembers, hrest⟩ := moreMembers_unique members members' hclose
          rw [membersData, membersData, Member.data, Member.data, hdata, hmembers]
          exact ⟨rfl, hrest⟩

theorem moreMembers_unique : ∀ (members members' : List Member) {after after' blank blank' : Ws}
    {r r' : Bytes}, after.bytes ++ closingMembers members blank r =
        after'.bytes ++ closingMembers members' blank' r' →
      membersData members = membersData members' ∧ r = r'
  | [], members', after, after', blank, blank', r, r', h => by
      have hskip := congrArg skip h
      rw [skip_closingMembers, skip_closingMembers] at hskip
      cases members' with
      | nil => exact ⟨rfl, (List.cons.inj hskip).2⟩
      | cons m' members' => exact absurd (List.cons.inj hskip).1 (by decide)
  | .mk before name afterName beforeValue value after₁ :: members, members', after, after', blank,
      blank', r, r', h => by
      have hskip := congrArg skip h
      rw [skip_closingMembers, skip_closingMembers] at hskip
      cases members' with
      | nil => exact absurd (List.cons.inj hskip).1 (by decide)
      | cons m' members' =>
          obtain ⟨before', name', afterName', beforeValue', value', after₁'⟩ := m'
          have hname := congrArg skip (List.cons.inj hskip).2
          rw [Member.text_append, Member.text_append, skip_ws, skip_ws, skip_quoted,
            skip_quoted] at hname
          obtain ⟨rfl, hcolon⟩ := quoted_unique hname
          have hvalue := congrArg skip hcolon
          rw [skip_ws, skip_ws, skip_cons (by decide), skip_cons (by decide)] at hvalue
          have hvalue := congrArg skip (List.cons.inj hvalue).2
          rw [skip_ws, skip_ws, skip_value, skip_value] at hvalue
          obtain ⟨hdata, hclose⟩ := value_unique value value'
            ((ended_closingMembers members blank r).ws after₁)
            ((ended_closingMembers members' blank' r').ws after₁') hvalue
          obtain ⟨hmembers, hrest⟩ := moreMembers_unique members members' hclose
          rw [membersData, membersData, Member.data, Member.data, hdata, hmembers]
          exact ⟨rfl, hrest⟩

end

/-- Documents with one text say the same. -/
theorem data_unique {v v' : Value} (h : v.text = v'.text) : v.data = v'.data := by
  have hnil : Ended [] := fun c hc => by cases hc
  refine (value_unique v v' hnil hnil ?_).1
  rw [List.append_nil, List.append_nil, h]

end MiniDbms.Json
