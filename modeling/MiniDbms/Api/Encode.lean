import MiniDbms.Api.Fields
import MiniDbms.Api.Render

/-!
# Strings that are written and read again

`buf_jsn` writes the pieces of a JSON string, and `scan_str` reads the pieces of one.  What
`scan_str` makes of `\u` is the letter and its digits.
-/

namespace MiniDbms

open Json

/-! ## What `buf_jsn` writes -/

/-- A digit that `buf_jsn` writes in an escape. -/
def hexPiece (n : UInt8) : HexDigit :=
  if h : (hexVal (hexDigit n)).isSome = true then ⟨hexDigit n, h⟩ else ⟨48, rfl⟩

/-- What `buf_jsn` makes of a byte, as a piece of a string. -/
def jsnPiece (b : UInt8) : Piece :=
  if h : isPlain b = true then .plain b h
  else if b = 34 then .escape .quote
  else if b = 92 then .escape .backslash
  else if b = 10 then .escape .lineFeed
  else if b = 13 then .escape .carriageReturn
  else if b = 9 then .escape .tab
  else .unicode ⟨48, rfl⟩ ⟨48, rfl⟩ (hexPiece (b / 16)) (hexPiece (b % 16))

theorem jsnPiece_text (b : UInt8) : (jsnPiece b).text = jsnByte b := by
  have hall : ∀ b : UInt8, (jsnPiece b).text = jsnByte b := forall_byte (by decide +kernel)
  exact hall b

theorem jsnPiece_decode (b : UInt8) : (jsnPiece b).decode = [b] := by
  have hall : ∀ b : UInt8, (jsnPiece b).decode = [b] := forall_byte (by decide +kernel)
  exact hall b

/-- No piece is half of a surrogate pair. -/
theorem jsnPiece_unit {b : UInt8} {n : Nat} (h : (jsnPiece b).unit = some n) : n < 0xD800 := by
  have hall : ∀ b : UInt8, ((jsnPiece b).unit.all fun n => decide (n < 0xD800)) = true :=
    forall_byte (by decide +kernel)
  have hb := hall b
  rw [h] at hb
  simpa using hb

theorem surrogates_jsnPiece (b : UInt8) (p : Piece) : surrogates (jsnPiece b) p = none := by
  unfold surrogates
  cases hunit : (jsnPiece b).unit with
  | none => rfl
  | some n =>
      have hn := jsnPiece_unit hunit
      cases p.unit with
      | none => rfl
      | some l => exact if_neg fun hpair => absurd hpair.1 (by omega)

theorem decode_jsnPieces : ∀ s : Bytes, decode (s.map jsnPiece) = s
  | [] => rfl
  | [b] => jsnPiece_decode b
  | b :: c :: s => by
      rw [List.map_cons, List.map_cons, decode, surrogates_jsnPiece, jsnPiece_decode,
        ← List.map_cons, decode_jsnPieces (c :: s)]
      rfl

theorem bufJsn_eq (text : Bytes) : bufJsn text = quoted ((cstr text).map jsnPiece) := by
  unfold bufJsn quoted
  rw [List.flatMap_map, List.cons_append]
  simp only [jsnPiece_text]

namespace Api

/-! ## What `scan_str` reads -/

/-- What `scan_str` makes of a piece: it does not know `\b`, `\f` and `\u`. -/
def scannedPiece : Piece → Bytes
  | .plain b _ => [b]
  | .escape e => [unescape e.letter]
  | .unicode a b c d => [117, a.byte, b.byte, c.byte, d.byte]

theorem hexDigit_ne (d : HexDigit) : d.byte ≠ 34 ∧ d.byte ≠ 92 := by
  have hall : ∀ b : UInt8, (hexVal b).isSome = true → b ≠ 34 ∧ b ≠ 92 :=
    forall_byte (by decide +kernel)
  exact hall d.byte d.hex

theorem scanEnd_text (rest : Bytes) : ∀ s : List Piece,
    scanEnd false (s.flatMap Piece.text ++ 34 :: rest) = some (s.flatMap Piece.text, rest)
  | [] => rfl
  | p :: s => by
      have ih := scanEnd_text rest s
      rw [List.flatMap_cons]
      cases p with
      | plain b hb =>
          simp only [isPlain, Bool.and_eq_true, decide_eq_true_eq, bne_iff_ne] at hb
          have hesc : (b == 92) = false := beq_eq_false_iff_ne.2 hb.2
          simp [Piece.text, scanEnd, hb.1.2, hesc, ih]
      | escape e => simp [Piece.text, scanEnd, ih]
      | unicode a b c d =>
          have ha := hexDigit_ne a
          have hb := hexDigit_ne b
          have hc := hexDigit_ne c
          have hd := hexDigit_ne d
          simp [Piece.text, scanEnd, ih, ha, hb, hc, hd, beq_eq_false_iff_ne.2 ha.2,
            beq_eq_false_iff_ne.2 hb.2, beq_eq_false_iff_ne.2 hc.2, beq_eq_false_iff_ne.2 hd.2]

theorem unescapeAll_text : ∀ s : List Piece,
    unescapeAll (s.flatMap Piece.text) = s.flatMap scannedPiece
  | [] => rfl
  | p :: s => by
      have ih := unescapeAll_text s
      rw [List.flatMap_cons, List.flatMap_cons]
      cases p with
      | plain b hb =>
          simp only [isPlain, Bool.and_eq_true, decide_eq_true_eq, bne_iff_ne] at hb
          simp [Piece.text, scannedPiece, unescapeAll_plain hb.2, ih]
      | escape e => simp [Piece.text, scannedPiece, unescapeAll, ih]
      | unicode a b c d =>
          simp [Piece.text, scannedPiece, unescapeAll, unescape, unescapeAll_plain,
            (hexDigit_ne a).2, (hexDigit_ne b).2, (hexDigit_ne c).2, (hexDigit_ne d).2, ih]

theorem scanStr_pieces (s : List Piece) (rest : Bytes) :
    scanStr (quoted s ++ rest) = some (s.flatMap scannedPiece, rest) := by
  have htail : s.flatMap Piece.text ++ [34] ++ rest = s.flatMap Piece.text ++ 34 :: rest := by simp
  rw [quoted, List.cons_append, htail, scanStr, scanEnd_text, Option.map_some]
  simp only [unescapeAll_text]

/-! ## Written and read again -/

/-- A control character that `buf_jsn` writes with `\u`. -/
def isCoded (b : UInt8) : Bool := b < 32 && b != 9 && b != 10 && b != 13

theorem scannedPiece_jsn (b : UInt8) :
    (isCoded b = false ∧ scannedPiece (jsnPiece b) = [b]) ∨
      (isCoded b = true ∧ (scannedPiece (jsnPiece b)).length = 5) := by
  have hall : ∀ b : UInt8, (isCoded b = false ∧ scannedPiece (jsnPiece b) = [b]) ∨
      (isCoded b = true ∧ (scannedPiece (jsnPiece b)).length = 5) :=
    forall_byte (by decide +kernel)
  exact hall b

theorem length_scanned (s : Bytes) :
    (s.flatMap fun b => scannedPiece (jsnPiece b)).length = s.length + 4 * s.countP isCoded := by
  induction s with
  | nil => rfl
  | cons b s ih =>
      rw [List.flatMap_cons, List.length_append, ih, List.length_cons]
      obtain ⟨hb, hone⟩ | ⟨hb, hfive⟩ := scannedPiece_jsn b
      · rw [hone, List.countP_cons_of_neg (by simp [hb]), List.length_singleton]
        omega
      · rw [hfive, List.countP_cons_of_pos hb]
        omega

/-- `scan_str` reads back the text that `buf_jsn` has written, and no more, exactly when it
holds no control character other than `\t`, `\n` and `\r`. -/
theorem scanStr_bufJsn_iff (s rest : Bytes) (hnul : ∀ b ∈ s, b ≠ 0) :
    scanStr (bufJsn s ++ rest) = some (s, rest) ↔ ∀ b ∈ s, isCoded b = false := by
  rw [bufJsn_eq, cstr_eq_self hnul, scanStr_pieces, List.flatMap_map, Option.some.injEq,
    Prod.mk.injEq, and_iff_left rfl]
  constructor
  · intro hsame b hb
    have hlen := length_scanned s
    rw [hsame] at hlen
    have hnone : s.countP isCoded = 0 := by omega
    rw [List.countP_eq_zero] at hnone
    simpa using hnone b hb
  · intro hplain
    calc s.flatMap (fun b => scannedPiece (jsnPiece b))
        = s.flatMap fun b => [b] := by
          refine List.flatMap_congr fun b hb => ?_
          obtain ⟨-, hone⟩ | ⟨hcoded, -⟩ := scannedPiece_jsn b
          · exact hone
          · rw [hplain b hb] at hcoded
            cases hcoded
      _ = s := List.flatMap_singleton' s

theorem scanStr_bufJsn_name :
    scanStr (bufJsn (str "a\"\\\n") ++ str ",") = some (str "a\"\\\n", str ",") :=
  (scanStr_bufJsn_iff (str "a\"\\\n") (str ",") (by decide +kernel)).2 (by decide +kernel)

/-- A string with the byte 1 is read back as the six characters of its escape but the first. -/
theorem control_not_read_back :
    scanStr (bufJsn [1]) = some (str "u0001", []) ∧ ¬ ∀ s : Bytes, (∀ b ∈ s, b ≠ 0) →
      scanStr (bufJsn s) = some (s, []) := by
  have hread : scanStr (bufJsn [1]) = some (str "u0001", []) := by decide +kernel
  refine ⟨hread, fun hall => ?_⟩
  rw [hall [1] (by decide +kernel)] at hread
  exact absurd hread (by decide)

end Api

end MiniDbms
