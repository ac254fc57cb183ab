import MiniDbms.Api.Encode

/-!
# Arrays that `json_arr` cuts

The loop of `json_arr` ends at the closing bracket, and also at the end of the text and at
anything that is no string.  A comma between two strings is passed over where there is one.
-/

namespace MiniDbms.Api

open Json

/-! ## The strings on the way -/

/-- The strings that the loop of `json_arr` comes to: where each is looked for, and what is
behind it.  `none` when one of them has no end. -/
def strings (ptr : Bytes) : Option (List (Bytes × Bytes)) :=
  match skipWs ptr with
  | 34 :: _ =>
    match _h : scanStr (skipWs ptr) with
    | none => none
    | some (_, rest) => (strings (skipComma (skipWs rest))).map ((ptr, rest) :: ·)
  | _ => some []
termination_by ptr.length
decreasing_by
  have h1 := scanStr_length _h
  have h2 := length_skipWs_le ptr
  have h3 := length_skipWs_le rest
  have h4 := length_skipComma_le (skipWs rest)
  omega

def blankBefore (ptr : Bytes) : Bytes := ptr.takeWhile isSpace

/-- Only JSON white space in front of the next token. -/
def JsonBlank (ptr : Bytes) : Prop := (blankBefore ptr).all isWs = true

/-- Behind a string the array ends, or a comma and another string follow. -/
def GoesOn (rest : Bytes) : Prop :=
  (∃ more, skipWs rest = 93 :: more) ∨ ∃ more next, skipWs rest = 44 :: more ∧ skipWs more = 34 :: next

/-- A string that JSON allows, and behind it what JSON allows there. -/
structure WellPlaced (e : Bytes × Bytes) : Prop where
  before : JsonBlank e.1
  string : ∃ s : List Piece, s.all Piece.simple = true ∧ skipWs e.1 = quoted s ++ e.2
  after : JsonBlank e.2
  next : GoesOn e.2

/-- The string at a place, as `scan_str` reads it. -/
def stringAt (e : Bytes × Bytes) : Bytes := ((scanStr (skipWs e.1)).map Prod.fst).getD []

theorem front_cases (ptr : Bytes) :
    (skipWs ptr).head? ≠ some 34 ∨ (∃ tail, skipWs ptr = 34 :: tail ∧ scanStr (skipWs ptr) = none) ∨
      ∃ tail item rest, skipWs ptr = 34 :: tail ∧ scanStr (skipWs ptr) = some (item, rest) := by
  by_cases hhead : (skipWs ptr).head? = some 34
  · obtain ⟨tail, hq⟩ : ∃ tail, skipWs ptr = 34 :: tail := by
      cases hs : skipWs ptr with
      | nil =>
          rw [hs] at hhead
          cases hhead
      | cons c tail =>
          rw [hs] at hhead
          exact ⟨tail, by rw [Option.some.inj hhead]⟩
    cases hscan : scanStr (skipWs ptr) with
    | none => exact .inr (.inl ⟨tail, hq, rfl⟩)
    | some found => exact .inr (.inr ⟨tail, found.1, found.2, hq, rfl⟩)
  · exact .inl hhead

section Rounds

variable {ptr tail item rest : Bytes}

theorem arrLoop_stop (h : (skipWs ptr).head? ≠ some 34) : arrLoop ptr = .values [] := by
  rw [arrLoop]
  split
  · rename_i hq
    rw [hq] at h
    exact absurd rfl h
  · rfl

theorem arrLoop_open (hq : skipWs ptr = 34 :: tail) (h : scanStr (skipWs ptr) = none) :
    arrLoop ptr = .failed := by
  rw [arrLoop]
  split
  · split
    · rfl
    · rename_i hsome
      rw [h] at hsome
      cases hsome
  · rename_i hno
    exact absurd hq (hno tail)

theorem arrLoop_next (hq : skipWs ptr = 34 :: tail) (h : scanStr (skipWs ptr) = some (item, rest)) :
    arrLoop ptr = (arrLoop (skipComma (skipWs rest))).push item := by
  rw [arrLoop]
  split
  · split
    · rename_i hnone
      rw [h] at hnone
      cases hnone
    · rename_i hsome
      rw [h] at hsome
      cases hsome
      rfl
  · rename_i hno
    exact absurd hq (hno tail)

theorem strings_stop (h : (skipWs ptr).head? ≠ some 34) : strings ptr = some [] := by
  rw [strings]
  split
  · rename_i hq
    rw [hq] at h
    exact absurd rfl h
  · rfl

theorem strings_open (hq : skipWs ptr = 34 :: tail) (h : scanStr (skipWs ptr) = none) :
    strings ptr = none := by
  rw [strings]
  split
  · split
    · rfl
    · rename_i hsome
      rw [h] at hsome
      cases hsome
  · rename_i hno
    exact absurd hq (hno tail)

theorem strings_next (hq : skipWs ptr = 34 :: tail) (h : scanStr (skipWs ptr) = some (item, rest)) :
    strings ptr = (strings (skipComma (skipWs rest))).map ((ptr, rest) :: ·) := by
  rw [strings]
  split
  · split
    · rename_i hnone
      rw [h] at hnone
      cases hnone
    · rename_i hsome
      rw [h] at hsome
      cases hsome
      rfl
  · rename_i hno
    exact absurd hq (hno tail)

end Rounds

theorem strings_cases (ptr : Bytes) :
    (strings ptr = some [] ∧ arrLoop ptr = .values [] ∧ (skipWs ptr).head? ≠ some 34) ∨
    (scanStr (skipWs ptr) = none ∧ strings ptr = none ∧ arrLoop ptr = .failed) ∨
    ∃ item rest, scanStr (skipWs ptr) = some (item, rest) ∧
      strings ptr = (strings (skipComma (skipWs rest))).map ((ptr, rest) :: ·) ∧
      arrLoop ptr = (arrLoop (skipComma (skipWs rest))).push item := by
  obtain hstop | ⟨tail, hq, hscan⟩ | ⟨tail, item, rest, hq, hscan⟩ := front_cases ptr
  · exact .inl ⟨strings_stop hstop, arrLoop_stop hstop, hstop⟩
  · exact .inr (.inl ⟨hscan, strings_open hq hscan, arrLoop_open hq hscan⟩)
  · exact .inr (.inr ⟨item, rest, hscan, strings_next hq hscan, arrLoop_next hq hscan⟩)

theorem arrLoop_eq (ptr : Bytes) :
    arrLoop ptr = match strings ptr with
      | none => .failed
      | some l => .values (l.map stringAt) := by
  induction hn : ptr.length using Nat.strong_induction_on generalizing ptr with
  | _ n ih =>
    obtain ⟨hs, hloop, -⟩ | ⟨-, hs, hloop⟩ | ⟨item, rest, hscan, hs, hloop⟩ := strings_cases ptr
    · rw [hs, hloop]
      rfl
    · rw [hs, hloop]
    · have hlt : (skipComma (skipWs rest)).length < n := by
        have h1 := scanStr_length hscan
        have h2 := length_skipWs_le ptr
        have h3 := length_skipWs_le rest
        have h4 := length_skipComma_le (skipWs rest)
        omega
      rw [hs, hloop, ih _ hlt _ rfl]
      cases strings (skipComma (skipWs rest)) with
      | none => rfl
      | some l =>
          simp only [Option.map_some, ArrResult.push, List.map_cons, stringAt, hscan,
            Option.getD_some]

/-! ## From the strings to the array -/

theorem jsonBlank_split {ptr : Bytes} (h : JsonBlank ptr) :
    ∃ ws : Ws, ptr = ws.bytes ++ skipWs ptr :=
  ⟨⟨blankBefore ptr, h⟩, (List.takeWhile_append_dropWhile).symm⟩

theorem itemsText_cons {i : StringItem} {items : List StringItem} (h : items ≠ []) :
    itemsText ((i :: items).map StringItem.item) =
      i.item.text ++ 44 :: itemsText (items.map StringItem.item) := by
  cases items with
  | nil => exact absurd rfl h
  | cons j items => simp only [List.map_cons, itemsText, moreItems]

theorem array_of_wellPlaced (ptr : Bytes) : ∀ l, strings ptr = some l → l ≠ [] →
    (∀ e ∈ l, WellPlaced e) → ∃ (items : List StringItem) (blank : Ws) (rest : Bytes),
      ptr = itemsText (items.map StringItem.item) ++ (blank.bytes ++ 93 :: rest) ∧
        items.map (fun i => decode i.string) = l.map stringAt := by
  induction hn : ptr.length using Nat.strong_induction_on generalizing ptr with
  | _ n ih =>
    intro l hl hne hgood
    obtain ⟨hs, -, -⟩ | ⟨-, hs, -⟩ | ⟨item, rest, hscan, hs, -⟩ := strings_cases ptr
    · rw [hs] at hl
      exact absurd (Option.some.inj hl).symm hne
    · rw [hs] at hl
      cases hl
    · rw [hs] at hl
      obtain ⟨l', hl', rfl⟩ := Option.map_eq_some_iff.1 hl
      obtain ⟨hbefore, ⟨s, hsimple, hquoted⟩, hafter, hnext⟩ := hgood _ List.mem_cons_self
      obtain ⟨before, hptr⟩ := jsonBlank_split hbefore
      obtain ⟨after, hrest⟩ := jsonBlank_split hafter
      simp only at hptr hrest hquoted
      have hvalue : decode s = stringAt (ptr, rest) := by
        unfold stringAt
        simp only [hquoted, scanStr_quoted hsimple, Option.map_some, Option.getD_some]
      have htext : ptr = (⟨before, s, after⟩ : StringItem).item.text ++ skipWs rest := by
        rw [StringItem.text_item, List.append_assoc, List.append_assoc, ← hrest, ← hquoted]
        exact hptr
      obtain ⟨more, hclose⟩ | ⟨more, next, hcomma, hstring⟩ := hnext
      · -- the bracket ends the loop
        have hstop : strings (skipComma (skipWs rest)) = some [] := by
          rw [hclose]
          change strings (93 :: more) = some []
          have hskip : skipWs (93 :: more) = 93 :: more := by simp [skipWs, isSpace]
          rw [strings, hskip]
          simp
        rw [hstop] at hl'
        cases hl'
        refine ⟨[⟨before, s, after⟩], {}, more, ?_, ?_⟩
        · rw [List.map_singleton, itemsText, moreItems, List.append_nil, List.nil_append, ← hclose]
          exact htext
        · rw [List.map_singleton, List.map_singleton, hvalue]
      · have hskip : skipComma (skipWs rest) = more := by
          rw [hcomma]
          rfl
        rw [hskip] at hl'
        have hlt : more.length < n := by
          have h1 := scanStr_length hscan
          have h2 := length_skipWs_le ptr
          have h3 := length_skipWs_le rest
          rw [hcomma, List.length_cons] at h3
          omega
        have hne' : l' ≠ [] := by
          rintro rfl
          obtain ⟨-, -, hhead⟩ | ⟨-, hnone, -⟩ | ⟨_, _, -, hmap, -⟩ := strings_cases more
          · rw [hstring] at hhead
            exact hhead rfl
          · rw [hnone] at hl'
            cases hl'
          · rw [hl', eq_comm, Option.map_eq_some_iff] at hmap
            obtain ⟨_, _, h⟩ := hmap
            cases h
        obtain ⟨items, blank, rest', hmore, hvalues⟩ := ih _ hlt more rfl l' hl' hne'
          fun e he => hgood e (List.mem_cons_of_mem _ he)
        have hitems : items ≠ [] := by
          rintro rfl
          exact hne' (List.map_eq_nil_iff.1 hvalues.symm)
        refine ⟨⟨before, s, after⟩ :: items, blank, rest', ?_, ?_⟩
        · rw [itemsText_cons hitems, List.append_assoc, List.cons_append, ← hmore, ← hcomma]
          exact htext
        · rw [List.map_cons, List.map_cons, hvalues, hvalue]

/-! ## From the array to the strings -/

/-- The strings of an array that is followed by `tail`. -/
def entries (tail : Bytes) : List StringItem → List (Bytes × Bytes)
  | [] => []
  | i :: items =>
    (itemsText ((i :: items).map StringItem.item) ++ tail,
      i.after.bytes ++ (moreItems (items.map StringItem.item) ++ tail)) :: entries tail items

theorem skipWs_items (i : StringItem) (items : List StringItem) (tail : Bytes) :
    blankBefore (itemsText ((i :: items).map StringItem.item) ++ tail) = i.before.bytes ∧
      skipWs (itemsText ((i :: items).map StringItem.item) ++ tail) = quoted i.string ++
        (i.after.bytes ++ (moreItems (items.map StringItem.item) ++ tail)) := by
  have htext : itemsText ((i :: items).map StringItem.item) ++ tail = i.before.bytes ++
      (quoted i.string ++ (i.after.bytes ++ (moreItems (items.map StringItem.item) ++ tail))) := by
    rw [List.map_cons, itemsText, StringItem.text_item]
    simp only [List.append_assoc]
  rw [htext]
  refine span_append ?_ (head_quoted _ _)
  rw [List.all_eq_true]
  exact fun c hc => isSpace_of_isWs (List.all_eq_true.1 i.before.blank c hc)

theorem blank_stop (ws : Ws) {c : UInt8} (hc : isSpace c = false) (s : Bytes) :
    blankBefore (ws.bytes ++ c :: s) = ws.bytes ∧ skipWs (ws.bytes ++ c :: s) = c :: s := by
  refine span_append ?_ ?_
  · rw [List.all_eq_true]
    exact fun b hb => isSpace_of_isWs (List.all_eq_true.1 ws.blank b hb)
  · intro b hb
    rw [← Option.some.inj hb]
    exact hc

theorem after_item (i : StringItem) (items : List StringItem) (blank : Ws) (rest : Bytes) :
    JsonBlank (i.after.bytes ++
        (moreItems (items.map StringItem.item) ++ (blank.bytes ++ 93 :: rest))) ∧
      (match items with
        | [] => skipWs (i.after.bytes ++
            (moreItems (items.map StringItem.item) ++ (blank.bytes ++ 93 :: rest))) = 93 :: rest
        | _ :: _ => skipWs (i.after.bytes ++
            (moreItems (items.map StringItem.item) ++ (blank.bytes ++ 93 :: rest))) =
              44 :: (itemsText (items.map StringItem.item) ++ (blank.bytes ++ 93 :: rest))) := by
  unfold JsonBlank
  cases items with
  | nil =>
      have hall : (i.after.bytes ++ blank.bytes).all isWs = true := by
        rw [List.all_append, i.after.blank, blank.blank]
        rfl
      obtain ⟨hblank, hskip⟩ := blank_stop ⟨i.after.bytes ++ blank.bytes, hall⟩
        (c := 93) (by decide) rest
      rw [List.append_assoc] at hblank hskip
      rw [List.map_nil, moreItems, List.nil_append]
      exact ⟨hblank ▸ hall, hskip⟩
  | cons j items =>
      have htext : moreItems ((j :: items).map StringItem.item) ++ (blank.bytes ++ 93 :: rest) =
          44 :: (itemsText ((j :: items).map StringItem.item) ++ (blank.bytes ++ 93 :: rest)) := by
        rw [List.map_cons, moreItems, itemsText, List.cons_append]
      obtain ⟨hblank, hskip⟩ := blank_stop i.after (c := 44) (by decide)
        (itemsText ((j :: items).map StringItem.item) ++ (blank.bytes ++ 93 :: rest))
      simp only [htext]
      refine ⟨?_, hskip⟩
      rw [hblank]
      exact i.after.blank

theorem strings_items (blank : Ws) (rest : Bytes) : ∀ items : List StringItem,
    strings (itemsText (items.map StringItem.item) ++ (blank.bytes ++ 93 :: rest)) =
      some (entries (blank.bytes ++ 93 :: rest) items)
  | [] => by
      have hskip := (blank_stop blank (c := 93) (by decide) rest).2
      rw [List.map_nil, itemsText, List.nil_append, strings, hskip]
      simp [entries]
  | i :: items => by
      obtain ⟨-, hstart⟩ := skipWs_items i items (blank.bytes ++ 93 :: rest)
      have hscan := scanStr_pieces i.string (i.after.bytes ++
        (moreItems (items.map StringItem.item) ++ (blank.bytes ++ 93 :: rest)))
      obtain ⟨-, hafter⟩ := after_item i items blank rest
      have hnext : strings (skipComma (skipWs (i.after.bytes ++
          (moreItems (items.map StringItem.item) ++ (blank.bytes ++ 93 :: rest))))) =
            some (entries (blank.bytes ++ 93 :: rest) items) := by
        cases items with
        | nil =>
            simp only at hafter
            rw [hafter]
            exact strings_items {} rest []
        | cons j items =>
            simp only at hafter
            rw [hafter]
            exact strings_items blank rest (j :: items)
      obtain ⟨-, -, hno⟩ | ⟨hnone, -, -⟩ | ⟨item, rest', hscan', hs, -⟩ := strings_cases
        (itemsText ((i :: items).map StringItem.item) ++ (blank.bytes ++ 93 :: rest))
      · rw [hstart] at hno
        exact absurd rfl hno
      · rw [hstart, hscan] at hnone
        cases hnone
      · rw [hstart, hscan] at hscan'
        obtain ⟨rfl, rfl⟩ := Prod.mk.inj (Option.some.inj hscan')
        rw [hs, hnext]
        rfl

/-! ## Strings that `scan_str` reads right -/

theorem length_utf8_le {c : Nat} : (utf8 c).length ≤ 4 ∧ (c < 65536 → (utf8 c).length ≤ 3) := by
  unfold utf8
  dsimp only
  split
  · simp
  · split
    · simp
    · split
      · simp
      · rename_i hbig
        exact ⟨by simp, fun h => absurd h hbig⟩

def isUnicode : Piece → Bool
  | .unicode _ _ _ _ => true
  | _ => false

theorem unit_isUnicode {p : Piece} {n : Nat} (h : p.unit = some n) : isUnicode p = true := by
  cases p with
  | unicode a b c d => rfl
  | plain b hb => cases h
  | escape e => cases h

theorem hexVal_lt {b : UInt8} (h : (hexVal b).isSome = true) : (hexVal b).getD 0 < 16 := by
  have hall : ∀ b : UInt8, (hexVal b).isSome = true → (hexVal b).getD 0 < 16 :=
    forall_byte (by decide +kernel)
  exact hall b h

theorem length_decode_piece (p : Piece) :
    p.decode.length + (if isUnicode p = true then 2 else 0) ≤ (scannedPiece p).length := by
  cases p with
  | plain b h => simp [Piece.decode, scannedPiece, isUnicode]
  | escape e => simp [Piece.decode, scannedPiece, isUnicode]
  | unicode a b c d =>
      have ha := hexVal_lt a.hex
      have hb := hexVal_lt b.hex
      have hc := hexVal_lt c.hex
      have hd := hexVal_lt d.hex
      have hlen := (length_utf8_le (c := ((a.val * 16 + b.val) * 16 + c.val) * 16 + d.val)).2
        (by unfold HexDigit.val; omega)
      simp only [Piece.decode, Piece.unit, Option.getD_some, scannedPiece, isUnicode, if_true,
        List.length_cons, List.length_nil]
      omega

/-- An escape with `\u` is longer as `scan_str` reads it than what it stands for. -/
theorem length_decode_le : ∀ s : List Piece,
    (decode s).length + 2 * s.countP isUnicode ≤ (s.flatMap scannedPiece).length
  | [] => Nat.le_refl 0
  | [p] => by
      have hp := length_decode_piece p
      rw [List.countP_singleton, List.flatMap_singleton, decode]
      by_cases hu : isUnicode p = true
      · rw [if_pos hu] at hp ⊢
        omega
      · rw [if_neg hu] at hp ⊢
        omega
  | p :: q :: s => by
      rw [decode]
      cases hpair : surrogates p q with
      | none =>
          have ih := length_decode_le (q :: s)
          have hp := length_decode_piece p
          simp only [List.flatMap_cons, List.length_append] at ih ⊢
          by_cases hu : isUnicode p = true
          · rw [List.countP_cons_of_pos hu]
            rw [if_pos hu] at hp
            omega
          · rw [List.countP_cons_of_neg hu]
            rw [if_neg hu] at hp
            omega
      | some c =>
          have ih := length_decode_le s
          have hlen := (length_utf8_le (c := c)).1
          unfold surrogates at hpair
          cases hup : p.unit with
          | none =>
              rw [hup] at hpair
              cases hpair
          | some m =>
              cases huq : q.unit with
              | none =>
                  rw [hup, huq] at hpair
                  cases hpair
              | some n =>
                  have hp := unit_isUnicode hup
                  have hq := unit_isUnicode huq
                  have hfive : ∀ {x : Piece}, isUnicode x = true → (scannedPiece x).length = 5 := by
                    intro x hx
                    cases x with
                    | unicode a b c d => rfl
                    | plain b hb => cases hx
                    | escape e => cases hx
                  rw [List.countP_cons_of_pos hp, List.countP_cons_of_pos hq]
                  simp only [List.flatMap_cons, List.length_append, hfive hp, hfive hq]
                  omega

/-- `scan_str` gives what a string stands for only where it knows all escapes. -/
theorem simple_of_scanned : ∀ s : List Piece, decode s = s.flatMap scannedPiece →
    s.all Piece.simple = true := by
  intro s h
  have hlen := length_decode_le s
  rw [h] at hlen
  have hnone : s.countP isUnicode = 0 := by omega
  rw [List.countP_eq_zero] at hnone
  clear hlen
  induction s with
  | nil => rfl
  | cons p s ih =>
      have hp := hnone p List.mem_cons_self
      have hunit : p.unit = none := by
        cases p with
        | unicode a b c d => exact absurd rfl hp
        | plain b hb => rfl
        | escape e => rfl
      have hcons : decode (p :: s) = p.decode ++ decode s := by
        cases s with
        | nil => simp [decode]
        | cons q s =>
            have hno : surrogates p q = none := by
              unfold surrogates
              rw [hunit]
            rw [decode, hno]
      rw [hcons, List.flatMap_cons] at h
      have hone : p.decode.length = 1 ∧ (scannedPiece p).length = 1 := by
        cases p with
        | unicode a b c d => exact absurd rfl hp
        | plain b hb => exact ⟨rfl, rfl⟩
        | escape e => exact ⟨rfl, rfl⟩
      obtain ⟨hfirst, hrest⟩ := List.append_inj h (hone.1.trans hone.2.symm)
      rw [List.all_cons, ih hrest fun q hq => hnone q (List.mem_cons_of_mem _ hq), Bool.and_true]
      cases p with
      | unicode a b c d => exact absurd rfl hp
      | plain b hb => rfl
      | escape e =>
          change [e.value] = [unescape e.letter] at hfirst
          cases e <;> first | rfl | exact absurd hfirst (by decide)

/-! ## The condition -/

theorem stringAt_entries (tail : Bytes) : ∀ items : List StringItem,
    (entries tail items).map stringAt = items.map fun i => i.string.flatMap scannedPiece
  | [] => rfl
  | i :: items => by
      obtain ⟨-, hstart⟩ := skipWs_items i items tail
      rw [entries, List.map_cons, stringAt_entries tail items]
      unfold stringAt
      simp only [hstart, scanStr_pieces, Option.map_some, Option.getD_some]
      rfl

theorem wellPlaced_entries (blank : Ws) (rest : Bytes) : ∀ items : List StringItem,
    (∀ i ∈ items, i.string.all Piece.simple = true) →
      ∀ e ∈ entries (blank.bytes ++ 93 :: rest) items, WellPlaced e
  | [], _, e, he => by cases he
  | i :: items, hsimple, e, he => by
      obtain ⟨hblank, hstart⟩ := skipWs_items i items (blank.bytes ++ 93 :: rest)
      obtain ⟨hafter, hnext⟩ := after_item i items blank rest
      rcases List.mem_cons.1 he with rfl | he
      · refine ⟨?_, ⟨i.string, hsimple i List.mem_cons_self, hstart⟩, hafter, ?_⟩
        · unfold JsonBlank
          simp only [hblank]
          exact i.before.blank
        · cases items with
          | nil => exact .inl ⟨rest, hnext⟩
          | cons j items =>
              refine .inr ⟨_, j.string.flatMap Piece.text ++ [34] ++ (j.after.bytes ++
                (moreItems (items.map StringItem.item) ++ (blank.bytes ++ 93 :: rest))), hnext, ?_⟩
              exact (skipWs_items j items (blank.bytes ++ 93 :: rest)).2
      · exact wellPlaced_entries blank rest items
          (fun j hj => hsimple j (List.mem_cons_of_mem _ hj)) e he

/-- The text at the key is an array of these strings. -/
def ArrayOf (json key : Bytes) (vals : List Bytes) : Prop :=
  ∃ (items : List StringItem) (blank : Ws) (rest : Bytes),
    findKey json key = some ((Value.array (items.map StringItem.item) blank).text ++ rest) ∧
      items.map (fun i => decode i.string) = vals

theorem array_text (items : List StringItem) (blank : Ws) (rest : Bytes) :
    (Value.array (items.map StringItem.item) blank).text ++ rest =
      91 :: (itemsText (items.map StringItem.item) ++ (blank.bytes ++ 93 :: rest)) := by
  rw [Value.text]
  simp

/-- Every string that the loop comes to is well placed, where the loop ends at all. -/
def WellPlacedAll (json key : Bytes) : Prop :=
  ∀ ptr l, findKey json key = some (91 :: ptr) → strings ptr = some l → ∀ e ∈ l, WellPlaced e

/-- `json_arr` returns strings only of whole arrays, exactly when every string that it comes to
is a string of JSON and is followed by the closing bracket or by a comma and another string. -/
theorem jsonArr_whole_iff (json key : Bytes) :
    (∀ vals, jsonArr json key = .values vals → vals ≠ [] → ArrayOf json key vals) ↔
      WellPlacedAll json key := by
  constructor
  · intro hwhole ptr l hkey hl e he
    have harr : jsonArr json key = .values (l.map stringAt) := by
      unfold jsonArr
      simp only [hkey, arrLoop_eq, hl]
    have hne : l.map stringAt ≠ [] := by
      rw [Ne, List.map_eq_nil_iff]
      exact List.ne_nil_of_mem he
    obtain ⟨items, blank, rest, htext, hvals⟩ := hwhole _ harr hne
    rw [hkey, array_text, Option.some.injEq, List.cons.injEq, and_iff_right rfl] at htext
    rw [htext, strings_items] at hl
    obtain rfl := Option.some.inj hl
    rw [stringAt_entries] at hvals
    refine wellPlaced_entries blank rest items (fun i hi => ?_) e he
    exact simple_of_scanned i.string (List.map_inj_left.1 hvals i hi)
  · intro hplaced vals harr hne
    unfold jsonArr at harr
    split at harr
    · rename_i ptr hkey
      rw [arrLoop_eq] at harr
      cases hl : strings ptr with
      | none =>
          rw [hl] at harr
          cases harr
      | some l =>
          rw [hl] at harr
          cases harr
          have hl' : l ≠ [] := fun h => hne (by rw [h]; rfl)
          obtain ⟨items, blank, rest, hptr, hvals⟩ :=
            array_of_wellPlaced ptr l hl hl' (hplaced ptr l hkey hl)
          refine ⟨items, blank, rest, ?_, hvals⟩
          rw [hkey, array_text, ← hptr]
    · cases harr

/-- Of `["a",5,"b"]` the first string is returned, though this is no array of one string. -/
theorem number_cuts_queries :
    jsonArr (str "\x7b\"queries\":[\"a\",5,\"b\"]\x7d") (str "queries") = .values [str "a"] ∧
      ¬ ArrayOf (str "\x7b\"queries\":[\"a\",5,\"b\"]\x7d") (str "queries") [str "a"] := by
  refine ⟨by decide +kernel, ?_⟩
  rintro ⟨items, blank, rest, htext, hvals⟩
  have hkey : findKey (str "\x7b\"queries\":[\"a\",5,\"b\"]\x7d") (str "queries") =
      some (91 :: str "\"a\",5,\"b\"]\x7d") := by decide +kernel
  rw [hkey, array_text, Option.some.injEq, List.cons.injEq, and_iff_right rfl] at htext
  have hstrings : strings (str "\"a\",5,\"b\"]\x7d") =
      some [(str "\"a\",5,\"b\"]\x7d", str ",5,\"b\"]\x7d")] := by decide +kernel
  rw [htext, strings_items, Option.some.injEq] at hstrings
  -- one string, and behind it no bracket
  cases items with
  | nil => cases hstrings
  | cons i items =>
      cases items with
      | nil =>
          rw [entries, List.cons.injEq, Prod.mk.injEq] at hstrings
          have hafter := (after_item i [] blank rest).2
          simp only [hstrings.1.2] at hafter
          have hcomma : (skipWs (str ",5,\"b\"]\x7d")).head? = some 44 := by decide +kernel
          rw [hafter] at hcomma
          cases hcomma
      | cons j items =>
          rw [entries, entries, List.cons.injEq] at hstrings
          cases hstrings.2

end MiniDbms.Api
