import MiniDbms.Db.Text
import Mathlib.Tactic.Ring

/-!
# Printed integers

The text `row_new` generates for a missing PK is read back by `parse_l`.
-/

namespace MiniDbms

theorem printDigits_spec : ∀ (fuel n : Nat) (acc : Bytes), n < 10 ^ (fuel + 1) →
    ∃ ds : Bytes, printDigits (fuel + 1) n acc = ds ++ acc ∧ ds ≠ [] ∧ ds.length ≤ fuel + 1 ∧
      (∀ c ∈ ds, isDigit c = true) ∧
      ∀ v, ds.foldl (fun n c => n * 10 + (c.toNat - 48)) v = v * 10 ^ ds.length + n := by
  intro fuel
  induction fuel with
  | zero =>
      intro n acc hn
      have hd : (UInt8.ofNat (48 + n % 10)).toNat = 48 + n % 10 := by
        rw [UInt8.toNat_ofNat']
        omega
      have hz : n / 10 = 0 := by omega
      refine ⟨[UInt8.ofNat (48 + n % 10)], by simp [printDigits, hz], by simp, by simp, ?_, ?_⟩
      · intro c hc
        rw [List.mem_singleton.1 hc]
        simp only [isDigit, Bool.and_eq_true, decide_eq_true_eq, UInt8.le_iff_toNat_le, hd]
        exact ⟨Nat.le_add_right 48 _, by change 48 + n % 10 ≤ 57; omega⟩
      · intro v
        simp only [List.foldl_cons, List.foldl_nil, hd, List.length_singleton]
        omega
  | succ fuel ih =>
      intro n acc hn
      have hd : (UInt8.ofNat (48 + n % 10)).toNat = 48 + n % 10 := by
        rw [UInt8.toNat_ofNat']
        omega
      have hdig : isDigit (UInt8.ofNat (48 + n % 10)) = true := by
        simp only [isDigit, Bool.and_eq_true, decide_eq_true_eq, UInt8.le_iff_toNat_le, hd]
        exact ⟨Nat.le_add_right 48 _, by change 48 + n % 10 ≤ 57; omega⟩
      rw [printDigits]
      by_cases hz : n / 10 = 0
      · refine ⟨[UInt8.ofNat (48 + n % 10)], by simp [hz], by simp, by simp, ?_, ?_⟩
        · intro c hc
          rw [List.mem_singleton.1 hc]
          exact hdig
        · intro v
          simp only [List.foldl_cons, List.foldl_nil, hd, List.length_singleton]
          omega
      · have hlt : n / 10 < 10 ^ (fuel + 1) := by
          rw [Nat.div_lt_iff_lt_mul (by omega), ← pow_succ]
          exact hn
        obtain ⟨ds, heq, hne, hlen, hds, hval⟩ :=
          ih (n / 10) (UInt8.ofNat (48 + n % 10) :: acc) hlt
        refine ⟨ds ++ [UInt8.ofNat (48 + n % 10)], ?_, by simp, ?_, ?_, ?_⟩
        · rw [if_neg hz, heq, List.append_assoc]
          rfl
        · rw [List.length_append, List.length_singleton]
          omega
        · intro c hc
          rcases List.mem_append.1 hc with hc | hc
          · exact hds c hc
          · rw [List.mem_singleton.1 hc]
            exact hdig
        · intro v
          rw [List.foldl_append, hval]
          simp only [List.foldl_cons, List.foldl_nil, hd, List.length_append,
            List.length_singleton, pow_succ]
          have hn10 : n / 10 * 10 + n % 10 = n := by omega
          calc (v * 10 ^ ds.length + n / 10) * 10 + (48 + n % 10 - 48)
              = v * (10 ^ ds.length * 10) + (n / 10 * 10 + n % 10) := by
                rw [Nat.add_sub_cancel_left]
                ring
            _ = v * (10 ^ ds.length * 10) + n := by rw [hn10]

/-! ## Texts without blanks and quotes -/

theorem not_isSpace_of_isDigit {c : UInt8} (h : isDigit c = true) : isSpace c = false := by
  simp only [isDigit, Bool.and_eq_true, decide_eq_true_eq, UInt8.le_iff_toNat_le] at h
  have h48 : 48 ≤ c.toNat := h.1
  have hne : c ≠ 32 := by
    rintro rfl
    exact absurd h48 (by decide)
  have hgt : ¬ c ≤ 13 := by
    rw [UInt8.le_iff_toNat_le]
    change ¬ c.toNat ≤ 13
    omega
  simp [isSpace, hne, hgt]

theorem ne_of_isDigit {c d : UInt8} (h : isDigit c = true) (hd : isDigit d = false) : c ≠ d := by
  rintro rfl
  rw [h] at hd
  cases hd

theorem dropWhile_isSpace_of_cons {c : UInt8} {s : Bytes} (h : isSpace c = false) :
    (c :: s).dropWhile isSpace = c :: s := by simp [h]

theorem trimUq_eq_self {s : Bytes} (hhead : ∀ c, s.head? = some c → isSpace c = false)
    (hlast : ∀ c, s.getLast? = some c → isSpace c = false)
    (hq : s.head? = some quote → ¬ (2 ≤ s.length ∧ s.getLast? = some quote)) : trimUq s = s := by
  have hl : s.dropWhile isSpace = s := by
    cases s with
    | nil => rfl
    | cons c s => exact dropWhile_isSpace_of_cons (hhead c rfl)
  have hr : s.rdropWhile isSpace = s := by
    rw [List.rdropWhile_eq_self_iff]
    intro hne
    have := hlast (s.getLast hne) (List.getLast?_eq_getLast_of_ne_nil hne)
    simp [this]
  unfold trimUq trimWs unquote
  rw [hl, hr, if_neg]
  rintro ⟨h₁, h₂, h₃⟩
  exact hq h₁ ⟨h₂, h₃⟩

theorem printL_spec {n : Int} (hlo : LONG_MIN ≤ n) (hhi : n ≤ LONG_MAX) :
    ∃ ds : Bytes, ds ≠ [] ∧ ds.length ≤ 20 ∧ (∀ c ∈ ds, isDigit c = true) ∧
      digitsVal ds = n.natAbs ∧ printL n = if n < 0 then 45 :: ds else ds := by
  have hlt : n.natAbs < 10 ^ (19 + 1) := by
    unfold LONG_MIN at hlo
    unfold LONG_MAX at hhi
    omega
  obtain ⟨ds, heq, hne, hlen, hds, hval⟩ := printDigits_spec 19 n.natAbs [] hlt
  refine ⟨ds, hne, hlen, hds, ?_, ?_⟩
  · have := hval 0
    rw [Nat.zero_mul, Nat.zero_add] at this
    exact this
  · unfold printL
    rw [heq, List.append_nil]

theorem takeSign_digits {ds : Bytes} (hds : ∀ c ∈ ds, isDigit c = true) :
    takeSign ds = (false, ds) := by
  cases ds with
  | nil => rfl
  | cons c ds =>
      have hc := hds c List.mem_cons_self
      have h45 : c ≠ 45 := ne_of_isDigit hc (by decide)
      have h43 : c ≠ 43 := ne_of_isDigit hc (by decide)
      unfold takeSign
      split <;> simp_all

/-- **Generated keys.** `parse_l` reads back what `row_new` prints. -/
theorem parseL_printL {n : Int} (hlo : LONG_MIN ≤ n) (hhi : n ≤ LONG_MAX) :
    trimUq (printL n) = printL n ∧ parseL (printL n) = some n := by
  obtain ⟨ds, hne, hlen, hds, hval, hprint⟩ := printL_spec hlo hhi
  have hall : ∀ c ∈ printL n, isSpace c = false ∧ c ≠ quote := by
    intro c hc
    rw [hprint] at hc
    have hdig : ∀ d ∈ ds, isSpace d = false ∧ d ≠ quote := fun d hd =>
      ⟨not_isSpace_of_isDigit (hds d hd), ne_of_isDigit (hds d hd) (by decide)⟩
    split at hc
    · rcases List.mem_cons.1 hc with rfl | hc
      · decide
      · exact hdig c hc
    · exact hdig c hc
  have htrim : trimUq (printL n) = printL n := by
    refine trimUq_eq_self (fun c hc => (hall c (List.mem_of_mem_head? hc)).1)
      (fun c hc => (hall c (List.mem_of_getLast? hc)).1) fun hq => ?_
    exact absurd rfl (hall quote (List.mem_of_mem_head? hq)).2
  have hshort : (printL n).length ≤ 255 := by
    rw [hprint]
    split
    · rw [List.length_cons]
      omega
    · omega
  have hnorm : normV 256 (printL n) = printL n := by
    unfold normV
    rw [List.take_of_length_le hshort, htrim]
  have hdrop : (printL n).dropWhile isSpace = printL n := by
    cases hp : printL n with
    | nil => rfl
    | cons c s => exact dropWhile_isSpace_of_cons (hall c (by simp [hp])).1
  have hdall : ds.all isDigit = true := List.all_eq_true.2 hds
  refine ⟨htrim, ?_⟩
  unfold parseL
  simp only [hnorm]
  have hpne : printL n ≠ [] := by
    rw [hprint]
    split <;> simp [hne]
  rw [if_neg hpne]
  unfold strtol
  rw [hdrop, hprint]
  by_cases hneg : n < 0
  · simp only [hneg, if_true, takeSign, hdall, hval]
    rw [if_pos ⟨hne, trivial⟩]
    have : -(n.natAbs : Int) = n := by omega
    rw [this, if_pos ⟨hlo, hhi⟩]
  · simp only [hneg, if_false, takeSign_digits hds, hdall, hval, Bool.false_eq_true]
    rw [if_pos ⟨hne, trivial⟩]
    have : (n.natAbs : Int) = n := by omega
    rw [this, if_pos ⟨hlo, hhi⟩]

theorem wrapL_range (n : Int) : LONG_MIN ≤ wrapL n ∧ wrapL n ≤ LONG_MAX := by
  unfold wrapL LONG_MIN LONG_MAX
  omega

theorem parseL_range {s : Bytes} {n : Int} (h : parseL s = some n) :
    LONG_MIN ≤ n ∧ n ≤ LONG_MAX := by
  unfold parseL at h
  dsimp only at h
  split at h
  · cases h
  · unfold strtol at h
    simp only [Option.ite_none_right_eq_some, Option.some.injEq] at h
    obtain ⟨-, hr, rfl⟩ := h
    exact hr

end MiniDbms
