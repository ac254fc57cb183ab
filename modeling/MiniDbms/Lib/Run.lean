import MiniDbms.Lib.Outcome

/-!
# Runs of a machine that can get stuck

A machine takes labelled steps, and a step that is not defined ends in an error.
An invariant may depend on a guard that every step of the run meets where it is
taken.
-/

namespace MiniDbms

namespace Run

variable {S L ε : Type} (step : S → L → Except ε S)

def exec : S → List L → Except ε S
  | s, [] => .ok s
  | s, l :: ls => do
    let s ← step s l
    exec s ls

/-- Every step of the run meets the guard where it starts. -/
def Guarded (ok : S → L → Prop) : S → List L → Prop
  | _, [] => True
  | s, l :: ls => ok s l ∧ ∀ s', step s l = .ok s' → Guarded ok s' ls

instance decidableGuarded (ok : S → L → Prop) [∀ s l, Decidable (ok s l)] :
    (s : S) → (ls : List L) → Decidable (Guarded step ok s ls)
  | _, [] => isTrue trivial
  | s, l :: ls =>
    have : ∀ s', Decidable (Guarded step ok s' ls) := fun s' => decidableGuarded ok s' ls
    inferInstanceAs (Decidable (ok s l ∧ ∀ s', step s l = .ok s' → Guarded step ok s' ls))

/-- Every step of the run is defined, and every state it goes through is in `I`. -/
def Always (I : S → Prop) : S → List L → Prop
  | s, [] => I s
  | s, l :: ls => I s ∧ ∃ s', step s l = .ok s' ∧ Always I s' ls

variable {step} {ok : S → L → Prop} {I : S → Prop}

theorem exec_cons {s s' : S} {l : L} {ls : List L} :
    exec step s (l :: ls) = .ok s' ↔ ∃ s₁, step s l = .ok s₁ ∧ exec step s₁ ls = .ok s' := by
  rw [exec]
  cases hs : step s l with
  | error e =>
      simp only [bind, Except.bind, reduceCtorEq, false_and, exists_false]
  | ok s₁ => simp [bind, Except.bind]

theorem exec_append {s s' : S} {ls ls' : List L} :
    exec step s (ls ++ ls') = .ok s' ↔
      ∃ s₁, exec step s ls = .ok s₁ ∧ exec step s₁ ls' = .ok s' := by
  induction ls generalizing s with
  | nil => simp [exec]
  | cons l ls ih =>
      rw [List.cons_append, exec_cons]
      simp only [ih, exec_cons]
      constructor
      · rintro ⟨s₁, h₁, s₂, h₂, h₃⟩
        exact ⟨s₂, ⟨s₁, h₁, h₂⟩, h₃⟩
      · rintro ⟨s₂, ⟨s₁, h₁, h₂⟩, h₃⟩
        exact ⟨s₁, h₁, s₂, h₂, h₃⟩

/-- The run gets to its end, in a state that passes the test. -/
def reaches (step : S → L → Except ε S) (s : S) (ls : List L) (test : S → Bool) : Bool :=
  match exec step s ls with
  | .ok s' => test s'
  | .error _ => false

theorem exists_of_reaches {s : S} {ls : List L} {test : S → Bool}
    (h : reaches step s ls test = true) : ∃ s', exec step s ls = .ok s' ∧ test s' = true := by
  unfold reaches at h
  split at h
  · rename_i s' hrun
    exact ⟨s', hrun, h⟩
  · cases h

/-- What every guarded step keeps, a guarded run keeps. -/
theorem inv (hstep : ∀ {s l s'}, I s → ok s l → step s l = .ok s' → I s') {s s' : S} {ls : List L}
    (h : I s) (hg : Guarded step ok s ls) (hrun : exec step s ls = .ok s') : I s' := by
  induction ls generalizing s with
  | nil =>
      cases hrun
      exact h
  | cons l ls ih =>
      obtain ⟨s₁, h₁, h₂⟩ := exec_cons.1 hrun
      exact ih (hstep h hg.1 h₁) (hg.2 s₁ h₁) h₂

/-- What every step keeps, a run keeps. -/
theorem kept (hstep : ∀ {s l s'}, I s → step s l = .ok s' → I s') {s s' : S} {ls : List L}
    (h : I s) (hrun : exec step s ls = .ok s') : I s' := by
  induction ls generalizing s with
  | nil =>
      cases hrun
      exact h
  | cons l ls ih =>
      obtain ⟨s₁, h₁, h₂⟩ := exec_cons.1 hrun
      exact ih (hstep h h₁) h₂

/-- A machine that refines a function step by step refines its fold. -/
theorem refines {M : Type} {R : S → M → Prop} {f : M → L → M}
    (hstep : ∀ {s m l s'}, R s m → step s l = .ok s' → R s' (f m l)) {s s' : S} {m : M}
    {ls : List L} (h : R s m) (hrun : exec step s ls = .ok s') : R s' (ls.foldl f m) := by
  induction ls generalizing s m with
  | nil =>
      cases hrun
      exact h
  | cons l ls ih =>
      obtain ⟨s₁, h₁, h₂⟩ := exec_cons.1 hrun
      exact ih (hstep h h₁) h₂

/-- How such a machine can get stuck. -/
theorem refines_error {M : Type} {R : S → M → Prop} {f : M → L → M} {E : ε → Prop}
    (hstep : ∀ {s m l s'}, R s m → step s l = .ok s' → R s' (f m l))
    (herr : ∀ {s m l e}, R s m → step s l = .error e → E e) {s : S} {m : M} {e : ε}
    {ls : List L} (h : R s m) (hrun : exec step s ls = .error e) : E e := by
  induction ls generalizing s m with
  | nil => cases hrun
  | cons l ls ih =>
      rw [exec] at hrun
      cases hs : step s l with
      | error e' =>
          rw [hs] at hrun
          cases hrun
          exact herr h hs
      | ok s₁ =>
          rw [hs] at hrun
          exact ih (hstep h hs) hrun

/-- A guarded run gets to its end when every guarded step is defined. -/
theorem total (hstep : ∀ {s l}, I s → ok s l → ∃ s', step s l = .ok s' ∧ I s') {s : S}
    {ls : List L} (h : I s) (hg : Guarded step ok s ls) :
    ∃ s', exec step s ls = .ok s' ∧ I s' := by
  induction ls generalizing s with
  | nil => exact ⟨s, rfl, h⟩
  | cons l ls ih =>
      obtain ⟨s₁, h₁, hi⟩ := hstep h hg.1
      obtain ⟨s', h₂, hi'⟩ := ih hi (hg.2 s₁ h₁)
      exact ⟨s', exec_cons.2 ⟨s₁, h₁, h₂⟩, hi'⟩

theorem Guarded.append {s s₁ : S} {ls ls' : List L} (hg : Guarded step ok s (ls ++ ls'))
    (hrun : exec step s ls = .ok s₁) : Guarded step ok s ls ∧ Guarded step ok s₁ ls' := by
  induction ls generalizing s with
  | nil =>
      cases hrun
      exact ⟨trivial, hg⟩
  | cons l ls ih =>
      obtain ⟨s₂, h₁, h₂⟩ := exec_cons.1 hrun
      obtain ⟨ha, hb⟩ := ih (hg.2 s₂ h₁) h₂
      refine ⟨⟨hg.1, ?_⟩, hb⟩
      intro s' hs'
      rw [h₁] at hs'
      cases hs'
      exact ha

theorem Always.start {s : S} {ls : List L} (h : Always step I s ls) : I s := by
  cases ls with
  | nil => exact h
  | cons l ls => exact h.1

theorem Always.exec {s : S} {ls : List L} (h : Always step I s ls) :
    ∃ s', Run.exec step s ls = .ok s' ∧ I s' := by
  induction ls generalizing s with
  | nil => exact ⟨s, rfl, h⟩
  | cons l ls ih =>
      obtain ⟨-, s₁, hs, hrest⟩ := h
      obtain ⟨s', hrun, hi⟩ := ih hrest
      exact ⟨s', exec_cons.2 ⟨s₁, hs, hrun⟩, hi⟩

theorem Always.mono {J : S → Prop} (hJ : ∀ s, I s → J s) {s : S} {ls : List L}
    (h : Always step I s ls) : Always step J s ls := by
  induction ls generalizing s with
  | nil => exact hJ s h
  | cons l ls ih =>
      obtain ⟨hi, s₁, hs, hrest⟩ := h
      exact ⟨hJ s hi, s₁, hs, ih hrest⟩

theorem Always.and {J : S → Prop} {s : S} {ls : List L} (h : Always step I s ls)
    (hJ : Always step J s ls) : Always step (fun s => I s ∧ J s) s ls := by
  induction ls generalizing s with
  | nil => exact ⟨h, hJ⟩
  | cons l ls ih =>
      obtain ⟨hi, s₁, hs, hrest⟩ := h
      obtain ⟨hj, s₂, hs', hrest'⟩ := hJ
      rw [hs] at hs'
      cases hs'
      exact ⟨⟨hi, hj⟩, s₁, hs, ih hrest hrest'⟩

/-- What every step keeps holds all along every run. -/
theorem always_of_step (hstep : ∀ s l, I s → ∃ s', step s l = .ok s' ∧ I s') {s : S}
    {ls : List L} (h : I s) : Always step I s ls := by
  induction ls generalizing s with
  | nil => exact h
  | cons l ls ih =>
      obtain ⟨s₁, hs, hi⟩ := hstep s l h
      exact ⟨h, s₁, hs, ih hi⟩

/-- What every guarded step keeps holds all along every guarded run. -/
theorem always_of_guarded (hstep : ∀ s l, I s → ok s l → ∃ s', step s l = .ok s' ∧ I s') {s : S}
    {ls : List L} (h : I s) (hg : Guarded step ok s ls) : Always step I s ls := by
  induction ls generalizing s with
  | nil => exact h
  | cons l ls ih =>
      obtain ⟨s₁, hs, hi⟩ := hstep s l h hg.1
      exact ⟨h, s₁, hs, ih hi (hg.2 s₁ hs)⟩

/-- When the guard says exactly which steps stay in `I`, guarded runs are exactly those
that stay there. -/
theorem always_iff_guarded (hstep : ∀ s l, I s → ((∃ s', step s l = .ok s' ∧ I s') ↔ ok s l))
    {s : S} {ls : List L} (h : I s) : Always step I s ls ↔ Guarded step ok s ls := by
  induction ls generalizing s with
  | nil => exact ⟨fun _ => trivial, fun _ => h⟩
  | cons l ls ih =>
      constructor
      · rintro ⟨-, s₁, hs, hrest⟩
        refine ⟨(hstep s l h).1 ⟨s₁, hs, hrest.start⟩, ?_⟩
        intro s' hs'
        rw [hs] at hs'
        cases hs'
        exact (ih hrest.start).1 hrest
      · rintro ⟨hok, hrest⟩
        obtain ⟨s₁, hs, hi⟩ := (hstep s l h).2 hok
        exact ⟨h, s₁, hs, (ih hi).2 (hrest s₁ hs)⟩

/-- Every state that the run goes through is in `I`, however far the run gets. -/
def Throughout (step : S → L → Except ε S) (I : S → Prop) (s : S) (ls : List L) : Prop :=
  ∀ as bs mid, ls = as ++ bs → exec step s as = .ok mid → I mid

theorem throughout_nil {s : S} : Throughout step I s [] ↔ I s := by
  constructor
  · exact fun h => h [] [] s rfl rfl
  · intro h as bs mid heq hrun
    obtain ⟨rfl, rfl⟩ := List.append_eq_nil_iff.1 heq.symm
    cases hrun
    exact h

theorem throughout_cons {s : S} {l : L} {ls : List L} : Throughout step I s (l :: ls) ↔
    I s ∧ ∀ s', step s l = .ok s' → Throughout step I s' ls := by
  constructor
  · refine fun h => ⟨h [] (l :: ls) s rfl rfl, fun s' hs as bs mid heq hrun => ?_⟩
    exact h (l :: as) bs mid (by rw [heq]; rfl) (exec_cons.2 ⟨s', hs, hrun⟩)
  · rintro ⟨hs, hrest⟩ as bs mid heq hrun
    cases as with
    | nil =>
        cases hrun
        exact hs
    | cons a as =>
        obtain ⟨rfl, rfl⟩ := List.cons.inj heq
        obtain ⟨s', hstep, hmid⟩ := exec_cons.1 hrun
        exact hrest s' hstep as bs mid rfl hmid

/-- When the guard says exactly which steps stay in `I`, and only a step that is defined can
break it, the runs that stay there are the guarded ones. -/
theorem throughout_iff_guarded {J : S → Prop} (hJ : ∀ {s l s'}, J s → step s l = .ok s' → J s')
    (hstep : ∀ {s l s'}, J s → I s → step s l = .ok s' → (I s' ↔ ok s l))
    (hdef : ∀ {s l}, J s → ¬ ok s l → ∃ s', step s l = .ok s') {s : S} {ls : List L} (hj : J s)
    (hi : I s) : Throughout step I s ls ↔ Guarded step ok s ls := by
  induction ls generalizing s with
  | nil => exact ⟨fun _ => trivial, fun _ => throughout_nil.2 hi⟩
  | cons l ls ih =>
      rw [throughout_cons]
      constructor
      · rintro ⟨-, hrest⟩
        have hstart : ∀ s', step s l = .ok s' → I s' := fun s' hs =>
          hrest s' hs [] ls s' rfl rfl
        refine ⟨?_, fun s' hs => (ih (hJ hj hs) (hstart s' hs)).1 (hrest s' hs)⟩
        by_contra hnot
        obtain ⟨s', hs⟩ := hdef hj hnot
        exact hnot ((hstep hj hi hs).1 (hstart s' hs))
      · rintro ⟨hok, hrest⟩
        exact ⟨hi, fun s' hs => (ih (hJ hj hs) ((hstep hj hi hs).2 hok)).2 (hrest s' hs)⟩

/-- Something that is true at the end and was not at the start became true in some
step. -/
theorem moment {P : S → Prop} {s s' : S} {ls : List L} (hrun : exec step s ls = .ok s')
    (h₀ : ¬ P s) (h₁ : P s') : ∃ as l bs sa sb, ls = as ++ l :: bs ∧ exec step s as = .ok sa ∧
      step sa l = .ok sb ∧ exec step sb bs = .ok s' ∧ ¬ P sa ∧ P sb := by
  induction ls generalizing s with
  | nil =>
      cases hrun
      exact absurd h₁ h₀
  | cons l ls ih =>
      obtain ⟨s₁, hs, hrest⟩ := exec_cons.1 hrun
      by_cases hP : P s₁
      · exact ⟨[], l, ls, s, s₁, rfl, rfl, hs, hrest, h₀, hP⟩
      · obtain ⟨as, l', bs, sa, sb, rfl, ha, hl, hb, hna, hnb⟩ := ih hrest hP
        exact ⟨l :: as, l', bs, sa, sb, rfl, exec_cons.2 ⟨s₁, hs, ha⟩, hl, hb, hna, hnb⟩

end Run

end MiniDbms
