import Mathlib.Data.List.Lex
import Mathlib.Data.List.TakeWhile
import Mathlib.Data.UInt

/-!
# Bytes and C strings

C text is a list of bytes.  A NUL-terminated string is the list of the bytes in
front of its terminator, so no list that stands for one holds a zero byte, and a
`char` array of `n + 1` bytes is a `CBuf n`.  `strcmp` compares bytes as unsigned
characters, which is the lexicographic order of the lists.
-/

namespace MiniDbms

abbrev Bytes := List UInt8

instance uint8LinearOrder : LinearOrder UInt8 where
  le_refl := UInt8.le_refl
  le_trans := fun _ _ _ => UInt8.le_trans
  le_antisymm := fun _ _ => UInt8.le_antisymm
  le_total := UInt8.le_total
  lt_iff_le_not_ge := fun a b => by
    simp only [UInt8.lt_iff_toNat_lt, UInt8.le_iff_toNat_le]
    omega
  toDecidableLE := fun a b => inferInstanceAs (Decidable (a ≤ b))
  toDecidableLT := fun a b => inferInstanceAs (Decidable (a < b))

/-- The bytes of an ASCII literal. -/
def str (s : String) : Bytes := s.toList.map fun c => UInt8.ofNat c.toNat

/-- The C string stored at the front of a byte sequence. -/
def cstr (s : Bytes) : Bytes := s.takeWhile (· != 0)

/-- `isspace` of the C locale: blank, `\t`, `\n`, `\v`, `\f` and `\r`. -/
def isSpace (b : UInt8) : Bool := b == 32 || (9 ≤ b && b ≤ 13)

def isDigit (b : UInt8) : Bool := 48 ≤ b && b ≤ 57

def isAlpha (b : UInt8) : Bool := (65 ≤ b && b ≤ 90) || (97 ≤ b && b ≤ 122)

def isAlnum (b : UInt8) : Bool := isAlpha b || isDigit b

def toUpper (b : UInt8) : UInt8 := if 97 ≤ b && b ≤ 122 then b - 32 else b

/-- A fact about all bytes from the 256 cases. -/
theorem forall_byte {P : UInt8 → Prop} (h : ∀ n : Fin 256, P (UInt8.ofNat n)) (c : UInt8) : P c := by
  have hc := h ⟨c.toNat, c.toNat_lt⟩
  simpa using hc

theorem cstr_eq_self {s : Bytes} (h : ∀ b ∈ s, b ≠ 0) : cstr s = s := by
  unfold cstr
  rw [List.takeWhile_eq_self_iff]
  intro b hb
  simpa using h b hb

theorem ne_zero_of_all {s : Bytes} (h : s.all (· != 0) = true) : ∀ b ∈ s, b ≠ 0 :=
  fun b hb => bne_iff_ne.1 (List.all_eq_true.1 h b hb)

theorem ne_zero_of_mem_cstr {s : Bytes} {b : UInt8} (hb : b ∈ cstr s) : b ≠ 0 := by
  have h := List.mem_takeWhile_imp hb
  simpa using h

/-- The string held by a `char` array of `n + 1` bytes. -/
structure CBuf (n : Nat) where
  bytes : Bytes
  fits : bytes.length ≤ n
  noNul : ∀ b ∈ bytes, b ≠ 0
deriving DecidableEq

namespace CBuf

variable {n : Nat}

@[ext] theorem ext {a b : CBuf n} (h : a.bytes = b.bytes) : a = b := by
  cases a
  cases b
  simp_all

/-- A zeroed array. -/
def empty : CBuf n := ⟨[], by simp, by simp⟩

instance : Inhabited (CBuf n) := ⟨empty⟩

end CBuf

/-- `strncpy(dst, src, n); dst[n] = '\0'` on an array of `n + 1` bytes. -/
def strncpy (n : Nat) (src : Bytes) : CBuf n where
  bytes := (cstr src).take n
  fits := by simp
  noNul := fun _ hb => ne_zero_of_mem_cstr (List.mem_of_mem_take hb)

theorem strncpy_bytes {n : Nat} {src : Bytes} (hnul : ∀ b ∈ src, b ≠ 0) :
    (strncpy n src).bytes = src.take n := by
  simp [strncpy, cstr_eq_self hnul]

@[simp] theorem strncpy_self {n : Nat} (s : CBuf n) : strncpy n s.bytes = s := by
  apply CBuf.ext
  rw [strncpy_bytes s.noNul, List.take_of_length_le s.fits]

end MiniDbms
