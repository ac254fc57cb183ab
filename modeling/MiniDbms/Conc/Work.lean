import MiniDbms.Conc.Machine
import MiniDbms.Db.Chains

/-!
# Private execution

What the statement of a `db_txdo` or of a `db_exec` attempt does after `tx_view`
returned: nothing, or a change of one working copy, which the first write of the
transaction to the table makes from the base.
-/

namespace MiniDbms

namespace Db

variable {db db' : Db} {tx tx' : DbTx} {stmt : Statement} {res res' : DbRes} {ok : Bool}
  {item? : Option Nat} {others : List Nat}

/-- The statement on a working copy; one that does not write leaves it alone. -/
def Writes (stmt : Statement) (tab tab' : TabVer) (ok : Bool) : Prop :=
  ∃ (res res' : DbRes) (t : TabVer), tab.execStmt stmt res = .ok (t, res', ok) ∧
    tab' = if stmt.isWr then t else tab

/-- The ways the private execution of a statement can go. -/
inductive RunCase (db : Db) (tx : DbTx) (item? : Option Nat) (stmt : Statement) :
    Db → DbTx → Bool → Prop
  /-- a read -/
  | read (ok : Bool) (hrd : stmt.isWr = false) : RunCase db tx item? stmt db tx ok
  /-- the table is not there, or could not be cloned -/
  | failed (h : (item?.bind fun i => tx.tabs[i]?) = none ∨ ∃ (i : Nat) (it : TxTab) (base : TabVer),
      item? = some i ∧ tx.tabs[i]? = some it ∧ it.work = none ∧
        db.heap.get it.base = some base ∧ base.tabClone = none) :
      RunCase db tx item? stmt db tx false
  /-- the first write to the table -/
  | first {i : Nat} {it : TxTab} {base tab tab' : TabVer} {ok : Bool} (hitem : item? = some i)
      (hi : tx.tabs[i]? = some it) (hw : it.work = none) (hbase : db.heap.get it.base = some base)
      (hclone : base.tabClone = some tab) (hrun : Writes stmt tab tab' ok) :
      RunCase db tx item? stmt { db with heap := (db.heap.alloc tab).set db.heap.next tab' }
        { tx with tabs := tx.tabs.set i { it with work := some db.heap.next, dirty := true } } ok
  /-- a further one -/
  | again {i a : Nat} {it : TxTab} {tab tab' : TabVer} {ok : Bool} (hitem : item? = some i)
      (hi : tx.tabs[i]? = some it) (hw : it.work = some a) (hget : db.heap.get a = some tab)
      (hrun : Writes stmt tab tab' ok) :
      RunCase db tx item? stmt { db with heap := db.heap.set a tab' } tx ok

theorem execAt_writes {a : Nat} (h : db.execAt a stmt res = .ok (db', res', ok)) :
    ∃ tab tab', db.heap.get a = some tab ∧ Writes stmt tab tab' ok ∧
      db' = { db with heap := db.heap.set a tab' } := by
  unfold execAt ver at h
  cases hget : db.heap.get a with
  | none =>
      rw [hget] at h
      cases h
  | some tab =>
      rw [hget] at h
      simp only [bind, Except.bind] at h
      cases hs : tab.execStmt stmt res with
      | error f =>
          rw [hs] at h
          cases h
      | ok r =>
          obtain ⟨t, res₁, ok₁⟩ := r
          rw [hs] at h
          dsimp only at h
          cases hwr : stmt.isWr with
          | true =>
              rw [hwr, if_pos rfl] at h
              cases h
              exact ⟨tab, t, rfl, ⟨_, _, _, hs, by rw [hwr, if_pos rfl]⟩, rfl⟩
          | false =>
              rw [hwr, if_neg Bool.false_ne_true] at h
              cases h
              refine ⟨tab, tab, rfl, ⟨_, _, _, hs, by rw [hwr, if_neg Bool.false_ne_true]⟩, ?_⟩
              rw [Heap.set_self hget]

theorem makeRun_cases (stmt : Statement) (hok : db.TxOk tx) {i : Nat} {it : TxTab} (hitem : item? = some i)
    (hi : tx.tabs[i]? = some it) {made : Bool} {db₁ : Db} {tx₁ : DbTx}
    (hm : db.txMakeWork tx i it = .ok (made, db₁, tx₁)) :
    (made = false → db₁ = db ∧ tx₁ = tx ∧ RunCase db tx item? stmt db tx false) ∧
      (made = true → ∃ a, itemTab tx₁ i = some a ∧ ∀ {res res' db' ok},
        db₁.execAt a stmt res = .ok (db', res', ok) → RunCase db tx item? stmt db' tx₁ ok) := by
  obtain ⟨hlt, hget⟩ := List.getElem?_eq_some_iff.1 hi
  unfold txMakeWork at hm
  cases hw : it.work with
  | some a =>
      have hdirty : ({ it with dirty := true } : TxTab) = it := by
        have hd := hok.dirty it (List.mem_of_getElem? hi)
        rw [hw] at hd
        rw [← show it.dirty = true from hd]
      have htabs : tx.tabs.set i it = tx.tabs := by
        rw [← hget, List.set_getElem_self]
      rw [hw] at hdirty hm
      dsimp only at hm
      rw [hdirty, htabs] at hm
      cases hm
      refine ⟨by simp, fun _ => ⟨a, ?_, ?_⟩⟩
      · unfold itemTab
        rw [hi, Option.map_some, hw]
        rfl
      · intro res res' db' ok hexec
        obtain ⟨tab, tab', hget, hrun, rfl⟩ := execAt_writes hexec
        exact .again hitem hi hw hget hrun
  | none =>
      rw [hw] at hm
      dsimp only at hm
      unfold ver at hm
      cases hb : db.heap.get it.base with
      | none =>
          rw [hb] at hm
          cases hm
      | some base =>
          rw [hb] at hm
          simp only [bind, Except.bind] at hm
          cases hc : base.tabClone with
          | none =>
              rw [hc] at hm
              cases hm
              exact ⟨fun _ => ⟨rfl, rfl, .failed (Or.inr ⟨i, it, base, hitem, hi, hw, hb, hc⟩)⟩,
                by simp⟩
          | some tab =>
              rw [hc] at hm
              cases hm
              refine ⟨by simp, fun _ => ⟨db.heap.next, ?_, ?_⟩⟩
              · unfold itemTab
                simp [hlt]
              · intro res res' db' ok hexec
                obtain ⟨tab₁, tab', hget, hrun, rfl⟩ := execAt_writes hexec
                have htab : some tab = some tab₁ := (Heap.get_alloc_next _ _).symm.trans hget
                cases htab
                exact .first hitem hi hw hb hc hrun

theorem bind_item {i : Nat} {item : TxTab}
    (h : (item?.bind fun i => (tx.tabs[i]?).map fun item => (i, item)) = some (i, item)) :
    item? = some i ∧ tx.tabs[i]? = some item := by
  obtain ⟨j, rfl, hj⟩ := Option.bind_eq_some_iff.1 h
  obtain ⟨x, hx, heq⟩ := Option.map_eq_some_iff.1 hj
  cases heq
  exact ⟨rfl, hx⟩

theorem bind_item_none
    (h : (item?.bind fun i => (tx.tabs[i]?).map fun item => (i, item)) = none) :
    (item?.bind fun i => tx.tabs[i]?) = none := by
  cases item? with
  | none => rfl
  | some i =>
      rw [Option.bind_some, Option.map_eq_none_iff] at h
      rw [Option.bind_some, h]

/-- **The statement of a `db_exec` attempt.** -/
theorem execRun_cases (hok : db.TxOk tx)
    (h : db.execRun tx item? stmt res = .ok (db', tx', res', ok)) :
    RunCase db tx item? stmt db' tx' ok := by
  unfold execRun at h
  cases hb : item?.bind fun i => (tx.tabs[i]?).map fun item => (i, item) with
  | none =>
      rw [hb] at h
      cases h
      exact .failed (Or.inl (bind_item_none hb))
  | some r =>
      obtain ⟨i, it⟩ := r
      obtain ⟨hitem, hi⟩ := bind_item hb
      rw [hb] at h
      dsimp only at h
      cases hm : db.txMakeWork tx i it with
      | error f =>
          simp only [bind, Except.bind, hm] at h
          cases h
      | ok r =>
          obtain ⟨made, db₁, tx₁⟩ := r
          obtain ⟨hoom, hrun⟩ := makeRun_cases stmt hok hitem hi hm
          simp only [bind, Except.bind, hm] at h
          cases made with
          | false =>
              obtain ⟨rfl, rfl, hcase⟩ := hoom rfl
              cases h
              exact hcase
          | true =>
              obtain ⟨a, ha, hcase⟩ := hrun rfl
              simp only [Bool.not_true, Bool.false_eq_true, if_false, ha] at h
              cases he : db₁.execAt a stmt res with
              | error f =>
                  rw [he] at h
                  cases h
              | ok r =>
                  obtain ⟨db₂, res₂, ok₂⟩ := r
                  rw [he] at h
                  cases h
                  exact hcase he

/-- **The statement of a `db_txdo`.** -/
theorem txRun_cases (hok : db.TxOk tx) (h : db.txRun tx item? stmt = .ok (db', tx', res, ok)) :
    RunCase db tx item? stmt db' tx' ok := by
  unfold txRun at h
  dsimp only at h
  cases hb : item?.bind fun i => (tx.tabs[i]?).map fun item => (i, item) with
  | none =>
      rw [hb] at h
      dsimp only at h
      split at h
      · cases h
        exact .failed (Or.inl (bind_item_none hb))
      · cases h
        exact .failed (Or.inl (bind_item_none hb))
  | some r =>
      obtain ⟨i, it⟩ := r
      obtain ⟨hitem, hi⟩ := bind_item hb
      rw [hb] at h
      dsimp only at h
      cases hwr : stmt.isWr with
      | true =>
          simp only [hwr, if_true] at h
          cases hm : db.txMakeWork tx i it with
          | error f =>
              simp only [bind, Except.bind, hm] at h
              cases h
          | ok r =>
              obtain ⟨made, db₁, tx₁⟩ := r
              obtain ⟨hoom, hrun⟩ := makeRun_cases stmt hok hitem hi hm
              simp only [bind, Except.bind, hm] at h
              cases made with
              | false =>
                  obtain ⟨rfl, rfl, hcase⟩ := hoom rfl
                  cases h
                  exact hcase
              | true =>
                  obtain ⟨a, ha, hcase⟩ := hrun rfl
                  simp only [Bool.not_true, Bool.false_eq_true, if_false, ha] at h
                  cases he : db₁.execAt a stmt { snapId := tx₁.snapId } with
                  | error f =>
                      rw [he] at h
                      cases h
                  | ok r =>
                      obtain ⟨db₂, res₂, ok₂⟩ := r
                      rw [he] at h
                      cases h
                      exact hcase he
      | false =>
          simp only [hwr, Bool.false_eq_true, if_false, bind, Except.bind, pure, Except.pure,
            Bool.not_true] at h
          cases ha : itemTab tx i with
          | none =>
              rw [ha] at h
              cases h
              exact .read _ hwr
          | some a =>
              rw [ha] at h
              dsimp only at h
              cases he : db.execAt a stmt { snapId := tx.snapId } with
              | error f =>
                  rw [he] at h
                  cases h
              | ok r =>
                  obtain ⟨db₂, res₂, ok₂⟩ := r
                  rw [he] at h
                  cases h
                  obtain ⟨tab, tab', hget, ⟨_, _, _, -, htab⟩, rfl⟩ := execAt_writes he
                  rw [hwr, if_neg Bool.false_ne_true] at htab
                  rw [htab, Heap.set_self hget]
                  exact .read _ hwr

end Db

end MiniDbms
