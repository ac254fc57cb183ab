import Mathlib.Data.List.Basic

/-!
# Positions and pieces of lists
-/

namespace MiniDbms

theorem split_at {α : Type} {l : List α} {i : Nat} {x : α} (hi : l[i]? = some x) :
    ∃ A B, l = A ++ x :: B ∧ A.length = i ∧ ∀ y, l.set i y = A ++ y :: B := by
  obtain ⟨hlt, he⟩ := List.getElem?_eq_some_iff.1 hi
  refine ⟨l.take i, l.drop (i + 1), ?_, ?_, ?_⟩
  · rw [← he, ← List.drop_eq_getElem_cons hlt, List.take_append_drop]
  · rw [List.length_take]
    omega
  · intro y
    rw [List.set_eq_take_append_cons_drop, if_pos hlt]

theorem set_eq_set_iff {α : Type} {l m : List α} {k : Nat} {a b : α} (hlen : l.length = m.length)
    (hk : k < m.length) : l.set k a = m.set k b ↔ (∀ j ≠ k, l[j]? = m[j]?) ∧ a = b := by
  constructor
  · intro h
    constructor
    · intro j hjk
      have hj := congrArg (·[j]?) h
      simpa only [List.getElem?_set_ne (Ne.symm hjk)] using hj
    · have hget := congrArg (·[k]?) h
      simp only [List.getElem?_set_self hk, List.getElem?_set_self (hlen ▸ hk)] at hget
      exact Option.some.inj hget
  · rintro ⟨hsame, rfl⟩
    apply List.ext_getElem?
    intro j
    by_cases hjk : j = k
    · rw [hjk, List.getElem?_set_self hk, List.getElem?_set_self (hlen ▸ hk)]
    · rw [List.getElem?_set_ne (Ne.symm hjk), List.getElem?_set_ne (Ne.symm hjk), hsame j hjk]

theorem span_append {α : Type} {p : α → Bool} {front rest : List α} (hfront : front.all p = true)
    (hrest : ∀ c ∈ rest.head?, p c = false) :
    (front ++ rest).takeWhile p = front ∧ (front ++ rest).dropWhile p = rest := by
  induction front with
  | nil =>
      cases rest with
      | nil => exact ⟨rfl, rfl⟩
      | cons c rest =>
          have hc : p c = false := hrest c rfl
          simp [hc]
  | cons a front ih =>
      rw [List.all_cons, Bool.and_eq_true] at hfront
      obtain ⟨htake, hdrop⟩ := ih hfront.2
      rw [List.cons_append, List.takeWhile_cons_of_pos hfront.1,
        List.dropWhile_cons_of_pos hfront.1, htake, hdrop]
      exact ⟨rfl, rfl⟩

theorem mapM_eq_some {α β : Type} {f : α → Option β} :
    ∀ {l : List α} {r : List β}, l.mapM f = some r ↔ l.map f = r.map some
  | [], r => by
      rw [List.mapM_nil, List.map_nil, eq_comm, eq_comm (b := r.map some), List.map_eq_nil_iff]
      exact Option.some_inj
  | a :: l, r => by
      rw [List.mapM_cons, List.map_cons]
      cases hf : f a with
      | none => cases r <;> simp
      | some b =>
          cases hl : l.mapM f with
          | none =>
              have hno : ∀ r' : List β, l.map f ≠ r'.map some := by
                intro r' hr'
                rw [mapM_eq_some.2 hr'] at hl
                exact absurd hl (by simp)
              cases r with
              | nil => simp
              | cons b' r' => simp [hno r']
          | some bs =>
              have hbs := mapM_eq_some.1 hl
              cases r with
              | nil => simp
              | cons b' r' => simp [hbs, List.map_inj_right]

theorem mapM_of_forall {α β : Type} {f : α → Option β} {g : α → β} {l : List α}
    (h : ∀ a ∈ l, f a = some (g a)) : l.mapM f = some (l.map g) := by
  rw [mapM_eq_some, List.map_map]
  exact List.map_congr_left h

/-- A loop whose rounds fail or change nothing. -/
theorem foldlM_guard {σ α : Type} {f : σ → α → Option σ} {s : σ} {p : α → Prop} [DecidablePred p]
    (h : ∀ a, f s a = if p a then none else some s) (l : List α) :
    l.foldlM f s = if ∃ a ∈ l, p a then none else some s := by
  induction l with
  | nil => simp
  | cons a l ih =>
      rw [List.foldlM_cons, h a]
      by_cases ha : p a
      · rw [if_pos ha, if_pos ⟨a, List.mem_cons_self, ha⟩]
        rfl
      · rw [if_neg ha, Option.bind_eq_bind, Option.bind_some, ih]
        refine if_congr ?_ rfl rfl
        simp [ha]

/-- What every round of a loop keeps holds where the loop comes to its end. -/
theorem foldlM_keeps {σ α : Type} {f : σ → α → Option σ} {P : σ → Prop}
    (hstep : ∀ s a s', P s → f s a = some s' → P s') :
    ∀ {l : List α} {s s' : σ}, P s → l.foldlM f s = some s' → P s'
  | [], s, s', hs, h => by
      cases h
      exact hs
  | a :: l, s, s', hs, h => by
      rw [List.foldlM_cons] at h
      obtain ⟨next, hnext, h⟩ := Option.bind_eq_some_iff.1 h
      exact foldlM_keeps hstep (hstep s a next hs hnext) h

theorem zipIdx_map_zipIdx {α β : Type} (l : List α) (f : α × Nat → β) :
    (l.zipIdx.map f).zipIdx = l.zipIdx.map fun e => (f e, e.2) := by
  apply List.ext_getElem?
  intro i
  rw [List.getElem?_zipIdx, List.getElem?_map, List.getElem?_map, List.getElem?_zipIdx]
  cases l[i]? <;> simp

theorem mem_takeWhile_iff {α : Type} {p : α → Bool} {l : List α} {a : α} :
    a ∈ l.takeWhile p ↔ ∃ k : Nat, l[k]? = some a ∧ ∀ j ≤ k, ∀ b, l[j]? = some b → p b = true := by
  induction l with
  | nil => simp
  | cons x l ih =>
      rw [List.takeWhile_cons]
      cases hx : p x with
      | false =>
          simp only [Bool.false_eq_true, if_false, List.not_mem_nil, false_iff]
          rintro ⟨k, -, hall⟩
          have := hall 0 (Nat.zero_le k) x rfl
          rw [hx] at this
          cases this
      | true =>
          rw [if_pos rfl, List.mem_cons, ih]
          constructor
          · rintro (rfl | ⟨k, hk, hall⟩)
            · refine ⟨0, rfl, ?_⟩
              intro j hj b hb
              obtain rfl := Nat.le_zero.1 hj
              cases hb
              exact hx
            · refine ⟨k + 1, hk, ?_⟩
              intro j hj b hb
              cases j with
              | zero =>
                  cases hb
                  exact hx
              | succ j => exact hall j (by omega) b hb
          · rintro ⟨k, hk, hall⟩
            cases k with
            | zero =>
                cases hk
                exact Or.inl rfl
            | succ k => exact Or.inr ⟨k, hk, fun j hj b hb => hall (j + 1) (by omega) b hb⟩

/-! ## Pieces of equal length -/

/-- `l` cut into pieces of `n` elements, the last one being what is left. -/
def chunks {α : Type} (n : Nat) (l : List α) : List (List α) :=
  (List.range ((l.length + n - 1) / n)).map fun i => (l.drop (i * n)).take n

section Chunks

variable {α : Type} {n : Nat}

theorem chunks_nil (hn : 0 < n) : chunks n ([] : List α) = [] := by
  have hcount : (([] : List α).length + n - 1) / n = 0 := by
    apply Nat.div_eq_of_lt
    simp only [List.length_nil]
    omega
  rw [chunks, hcount]
  rfl

theorem chunks_of_ne_nil (hn : 0 < n) {l : List α} (hl : l ≠ []) :
    chunks n l = l.take n :: chunks n (l.drop n) := by
  have hpos : 0 < l.length := List.length_pos_iff.2 hl
  have hcount : (l.length + n - 1) / n = ((l.drop n).length + n - 1) / n + 1 := by
    rw [List.length_drop, ← Nat.add_div_right _ hn]
    by_cases hle : l.length ≤ n
    · -- one piece
      have hleft : (l.length + n - 1) / n = 1 := by
        rw [Nat.div_eq_iff hn]
        omega
      have hright : (l.length - n + n - 1 + n) / n = 1 := by
        rw [Nat.div_eq_iff hn]
        omega
      rw [hleft, hright]
    · congr 1
      omega
  unfold chunks
  rw [hcount, List.range_succ_eq_map, List.map_cons, List.map_map]
  congr 1
  · simp
  · refine List.map_congr_left fun i _ => ?_
    simp only [Function.comp_apply, List.drop_drop, Nat.succ_mul]
    rw [Nat.add_comm n]

/-- Induction on the pieces. -/
theorem chunks_induction (hn : 0 < n) {P : List α → Prop} (nil : P [])
    (step : ∀ l, l ≠ [] → P (l.drop n) → P l) (l : List α) : P l := by
  induction hlen : l.length using Nat.strongRecOn generalizing l with
  | _ m ih =>
      by_cases hl : l = []
      · exact hl ▸ nil
      · have hpos : 0 < l.length := List.length_pos_iff.2 hl
        refine step l hl (ih (l.drop n).length ?_ (l.drop n) rfl)
        rw [List.length_drop]
        omega

theorem flatten_chunks (hn : 0 < n) (l : List α) : (chunks n l).flatten = l := by
  induction l using chunks_induction hn with
  | nil => rw [chunks_nil hn]; rfl
  | step l hl ih =>
      rw [chunks_of_ne_nil hn hl, List.flatten_cons, ih, List.take_append_drop]

theorem mem_chunks (hn : 0 < n) (l : List α) :
    ∀ c ∈ chunks n l, c ≠ [] ∧ c.length ≤ n := by
  induction l using chunks_induction hn with
  | nil => simp [chunks_nil hn]
  | step l hl ih =>
      intro c hc
      rw [chunks_of_ne_nil hn hl] at hc
      rcases List.mem_cons.1 hc with rfl | hc
      · refine ⟨?_, List.length_take_le n l⟩
        rw [Ne, List.take_eq_nil_iff]
        simp only [hl, or_false]
        omega
      · exact ih c hc

theorem length_chunks (n : Nat) (l : List α) : (chunks n l).length = (l.length + n - 1) / n := by
  simp [chunks]

theorem chunks_map {β : Type} (f : α → β) (l : List α) :
    chunks n (l.map f) = (chunks n l).map (List.map f) := by
  unfold chunks
  rw [List.map_map, List.length_map]
  refine List.map_congr_left fun i _ => ?_
  rw [Function.comp_apply, List.map_take, List.map_drop]

theorem length_chunks_lt (hn : 2 ≤ n) {l : List α} (hl : 2 ≤ l.length) :
    (chunks n l).length < l.length := by
  rw [length_chunks, Nat.div_lt_iff_lt_mul (by omega)]
  have hmul : l.length * 2 ≤ l.length * n := Nat.mul_le_mul_left _ hn
  have hmul' : 2 * n ≤ l.length * n := Nat.mul_le_mul_right _ hl
  omega

end Chunks

/-! ## Lists that expand to themselves -/

section Expand

variable {α : Type} {pieces : α → List α} {l : List α}

/-- An expansion that has fallen behind does not catch up where an element comes at the front
of its own pieces or not at all. -/
theorem flatMap_ne_append (hlater : ∀ a ∈ l, a ∉ (pieces a).tail) :
    ∀ ahead : List α, ahead ≠ [] → l.flatMap pieces ≠ ahead ++ l := by
  induction l with
  | nil =>
      intro ahead hne h
      exact hne (List.append_eq_nil_iff.1 h.symm).1
  | cons a l ih =>
      intro ahead hne h
      have ih := ih fun b hb => hlater b (List.mem_cons_of_mem a hb)
      rw [List.flatMap_cons] at h
      obtain ⟨rest, -, hrest⟩ | ⟨rest, hpieces, hrest⟩ := List.append_eq_append_iff.1 h
      · refine ih (rest ++ [a]) (by simp) ?_
        rw [hrest, List.append_assoc, List.singleton_append]
      · cases rest with
        | nil =>
            refine ih [a] (List.cons_ne_nil a []) ?_
            rw [List.nil_append] at hrest
            exact hrest.symm
        | cons b rest =>
            obtain ⟨rfl, -⟩ := List.cons.inj hrest
            refine hlater a List.mem_cons_self ?_
            rw [hpieces]
            cases ahead with
            | nil => exact absurd rfl hne
            | cons c ahead => simp

/-- When an element that comes first among its pieces is the only one, and none comes later, a
list is its own expansion only element by element. -/
theorem flatMap_eq_self_iff (hfirst : ∀ a ∈ l, ∀ rest, pieces a = a :: rest → rest = [])
    (hlater : ∀ a ∈ l, a ∉ (pieces a).tail) :
    l.flatMap pieces = l ↔ ∀ a ∈ l, pieces a = [a] := by
  induction l with
  | nil => simp
  | cons a l ih =>
      have hlater' : ∀ b ∈ l, b ∉ (pieces b).tail := fun b hb =>
        hlater b (List.mem_cons_of_mem a hb)
      have ih := ih (fun b hb => hfirst b (List.mem_cons_of_mem a hb)) hlater'
      rw [List.flatMap_cons, List.forall_mem_cons, ← ih]
      constructor
      · intro h
        cases hp : pieces a with
        | nil =>
            rw [hp] at h
            exact absurd h (flatMap_ne_append hlater' [a] (List.cons_ne_nil a []))
        | cons b rest =>
            rw [hp, List.cons_append, List.cons.injEq] at h
            obtain ⟨rfl, h⟩ := h
            obtain rfl := hfirst b List.mem_cons_self rest hp
            exact ⟨rfl, h⟩
      · rintro ⟨hp, h⟩
        rw [hp, h]
        rfl

end Expand

end MiniDbms
