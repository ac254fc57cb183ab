import MiniDbms.Db.World

/-!
# What every reachable table has

A property that cloning, every statement and a new version number keep holds of
every table of the abstract world, committed or not, once it holds of the files.
-/

namespace MiniDbms

/-- A property of tables that nothing the store does can break. -/
structure Closed (P : Bytes → TabVer → Prop) : Prop where
  clone : ∀ {name tab dst}, P name tab → tab.tabClone = some dst → P name dst
  exec : ∀ {name tab tab' stmt res res' ok}, P name tab →
    tab.execStmt stmt res = .ok (tab', res', ok) → P name tab'
  ver : ∀ {name tab} (v : Nat), P name tab → P name { tab with verId := v }

def AllTabs (P : Bytes → TabVer → Prop) (tabs : Tables) : Prop :=
  ∀ name tab, tabs name = some tab → P name tab

variable {P : Bytes → TabVer → Prop}

namespace IdealTx

structure Has (P : Bytes → TabVer → Prop) (tx : IdealTx) : Prop where
  seen : AllTabs P tx.seen
  work : AllTabs P tx.work

variable {tx tx' : IdealTx}

theorem Has.put (h : tx.Has P) {name : Bytes} {tab : TabVer} (ht : P name tab) :
    (tx.put name tab).Has P := by
  refine ⟨h.seen, ?_⟩
  intro n t hn
  unfold IdealTx.put at hn
  dsimp only at hn
  split at hn
  · rename_i heq
    cases hn
    exact heq ▸ ht
  · exact h.work n t hn

theorem Has.own (h : tx.Has P) (hc : Closed P) {name : Bytes} {tab : TabVer}
    (ho : tx.own name = some tab) : P name tab := by
  unfold IdealTx.own at ho
  split at ho
  · rename_i t hw
    cases ho
    exact h.work name _ hw
  · obtain ⟨base, hb, hclone⟩ := Option.bind_eq_some_iff.1 ho
    exact hc.clone (h.seen name base hb) hclone

theorem Has.run (h : tx.Has P) (hc : Closed P) {stmt : Statement} {res : DbRes} {ok : Bool}
    (hrun : tx.run stmt = .ok (tx', res, ok)) : tx'.Has P := by
  unfold IdealTx.run at hrun
  dsimp only at hrun
  split at hrun
  · split at hrun
    · cases hrun
      exact h
    · rename_i tab hown
      cases hexec : runOn tab stmt tx.snapId with
      | error f =>
          simp only [bind, Except.bind, hexec] at hrun
          cases hrun
      | ok r =>
          simp only [bind, Except.bind, hexec] at hrun
          cases hrun
          exact h.put (hc.exec (h.own hc hown) hexec)
  · split at hrun
    · cases hrun
      exact h
    · rename_i tab hview
      cases hexec : runOn tab stmt tx.snapId with
      | error f =>
          simp only [bind, Except.bind, hexec] at hrun
          cases hrun
      | ok r =>
          simp only [bind, Except.bind, hexec] at hrun
          cases hrun
          exact h

theorem Has.txdo (h : tx.Has P) (hc : Closed P) {maxSql : Int} {sql : Bytes} {res : DbRes}
    {ok : Bool} (hrun : tx.txdo maxSql sql = .ok (tx', res, ok)) : tx'.Has P := by
  unfold IdealTx.txdo at hrun
  split at hrun
  · cases hrun
    exact h
  · exact h.run hc hrun

theorem Has.batchLoop (hc : Closed P) {maxSql : Int} : ∀ (sqls : List Bytes) {tx tx' : IdealTx}
    {out : List DbRes} {ok : Bool}, tx.Has P →
      Ideal.batchLoop maxSql tx sqls = .ok (tx', out, ok) → tx'.Has P
  | [], tx, tx', out, ok, h, hrun => by
      cases hrun
      exact h
  | sql :: sqls, tx, tx', out, ok, h, hrun => by
      rw [Ideal.batchLoop] at hrun
      cases hone : tx.txdo maxSql sql with
      | error f =>
          simp only [bind, Except.bind, hone] at hrun
          cases hrun
      | ok r =>
          obtain ⟨tx₁, res, ok₁⟩ := r
          have h₁ := h.txdo hc hone
          simp only [bind, Except.bind, hone] at hrun
          cases ok₁ with
          | false =>
              cases hrun
              exact h₁
          | true =>
              cases hrest : Ideal.batchLoop maxSql tx₁ sqls with
              | error f =>
                  rw [hrest] at hrun
                  cases hrun
              | ok r =>
                  rw [hrest] at hrun
                  cases hrun
                  exact Has.batchLoop hc sqls h₁ hrest

end IdealTx

namespace Ideal

variable {d d' : Ideal} {tx : IdealTx}

theorem begin_has (h : AllTabs P d.com) : d.begin.Has P := ⟨h, fun _ _ hn => nomatch hn⟩

theorem install_all (h : AllTabs P d.com) (hc : Closed P) (htx : tx.Has P) :
    AllTabs P (d.install tx).com := by
  intro name tab htab
  change Db.override tx.work d.com (d.ver + 1) name = some tab at htab
  unfold Db.override at htab
  cases hwork : tx.work name with
  | none =>
      rw [hwork] at htab
      exact h name tab htab
  | some t =>
      rw [hwork] at htab
      cases htab
      exact hc.ver _ (htx.work name t hwork)

theorem write_all (h : AllTabs P d.com) (hc : Closed P) {stmt : Statement} {res : DbRes} {ok : Bool}
    (hrun : d.write stmt = .ok (d', res, ok)) : AllTabs P d'.com := by
  unfold Ideal.write at hrun
  dsimp only at hrun
  split at hrun
  · cases hrun
    exact h
  · rename_i base hbase
    split at hrun
    · cases hrun
      exact h
    · rename_i tab hclone
      cases hexec : tab.execStmt stmt {} with
      | error f =>
          simp only [bind, Except.bind, hexec] at hrun
          cases hrun
      | ok r =>
          obtain ⟨tab', res', ok'⟩ := r
          simp only [bind, Except.bind, hexec] at hrun
          cases ok' with
          | false =>
              cases hrun
              exact h
          | true =>
              cases hrun
              have htab := hc.exec (hc.clone (h _ base hbase) hclone) hexec
              exact install_all h hc ((begin_has h).put htab)

theorem exec_all (h : AllTabs P d.com) (hc : Closed P) {sql : Bytes} {res : DbRes} {ok : Bool}
    (hrun : d.exec sql = .ok (d', res, ok)) : AllTabs P d'.com := by
  unfold Ideal.exec at hrun
  split at hrun
  · cases hrun
    exact h
  · split at hrun
    · cases hread : d.read d.ver d.com sql with
      | error f =>
          simp only [bind, Except.bind, hread] at hrun
          cases hrun
      | ok r =>
          simp only [bind, Except.bind, hread] at hrun
          cases hrun
          exact h
    · exact write_all h hc hrun

theorem batchEach_all (hc : Closed P) : ∀ (sqls : List Bytes) {d d' : Ideal} {out : List DbRes},
    AllTabs P d.com → d.batchEach sqls = .ok (d', out) → AllTabs P d'.com
  | [], d, d', out, h, hrun => by
      cases hrun
      exact h
  | sql :: sqls, d, d', out, h, hrun => by
      rw [Ideal.batchEach] at hrun
      cases hone : d.exec sql with
      | error f =>
          simp only [bind, Except.bind, hone] at hrun
          cases hrun
      | ok r =>
          have h₁ := exec_all h hc hone
          simp only [bind, Except.bind, hone] at hrun
          cases hrest : batchEach r.1 sqls with
          | error f =>
              rw [hrest] at hrun
              cases hrun
          | ok r₂ =>
              rw [hrest] at hrun
              cases hrun
              exact batchEach_all hc sqls h₁ hrest

theorem batch_all (h : AllTabs P d.com) (hc : Closed P) {sqls : List Bytes} {tx : Bool}
    {out : List DbRes} {ok : Bool} (hrun : d.batch sqls tx = .ok (d', out, ok)) :
    AllTabs P d'.com := by
  unfold Ideal.batch at hrun
  split at hrun
  · cases hrun
    exact h
  · split at hrun
    · cases hrun
      exact h
    · split at hrun
      · cases hloop : Ideal.batchLoop d.maxSql d.begin sqls with
        | error f =>
            simp only [bind, Except.bind, hloop] at hrun
            cases hrun
        | ok r =>
            obtain ⟨tx', out', ok'⟩ := r
            simp only [bind, Except.bind, hloop] at hrun
            cases ok' with
            | false =>
                cases hrun
                exact h
            | true =>
                cases hrun
                exact install_all h hc (IdealTx.Has.batchLoop hc sqls (begin_has h) hloop)
      · cases heach : d.batchEach sqls with
        | error f =>
            simp only [bind, Except.bind, heach] at hrun
            cases hrun
        | ok r =>
            simp only [bind, Except.bind, heach] at hrun
            cases hrun
            exact batchEach_all hc sqls h heach

end Ideal

namespace IdealWorld

/-- The property holds of all tables but those of plain snapshots, which are only read. -/
structure Has (P : Bytes → TabVer → Prop) (w : IdealWorld) : Prop where
  com : AllTabs P w.d.com
  txs : ∀ tx, some tx ∈ w.txs → tx.Has P

variable {w w' : IdealWorld}

theorem Has.set (h : w.Has P) {d : Ideal} (hd : AllTabs P d.com) (k : Nat) {o : Option IdealTx}
    (ho : ∀ tx, o = some tx → tx.Has P) :
    Has P { w with d := d, txs := w.txs.set k o } := by
  refine ⟨hd, ?_⟩
  intro tx htx
  rcases List.mem_or_eq_of_mem_set htx with htx | htx
  · exact h.txs tx htx
  · exact ho tx htx.symm

theorem tx?_mem {k : Nat} {tx : IdealTx} (h : w.tx? k = some tx) : some tx ∈ w.txs := by
  unfold tx? at h
  exact List.mem_of_getElem? (Option.join_eq_some_iff.1 h)

theorem Has.step (h : w.Has P) (hc : Closed P) {c : Call} {o : Out}
    (hstep : w.step c = .ok (w', o)) : w'.Has P := by
  cases c with
  | begin =>
      cases hstep
      refine ⟨h.com, ?_⟩
      intro tx htx
      rcases List.mem_append.1 htx with htx | htx
      · exact h.txs tx htx
      · cases List.mem_singleton.1 htx
        exact Ideal.begin_has h.com
  | txdo k sql =>
      simp only [IdealWorld.step] at hstep
      cases hk : w.tx? k with
      | none =>
          rw [hk] at hstep
          cases hstep
          exact h
      | some tx =>
          rw [hk] at hstep
          dsimp only at hstep
          cases hdo : tx.txdo w.d.maxSql sql with
          | error f =>
              simp only [bind, Except.bind, hdo] at hstep
              cases hstep
          | ok r =>
              simp only [bind, Except.bind, hdo] at hstep
              cases hstep
              refine h.set h.com k ?_
              rintro tx' ⟨⟩
              exact (h.txs tx (tx?_mem hk)).txdo hc hdo
  | commit k =>
      simp only [IdealWorld.step] at hstep
      cases hk : w.tx? k with
      | none =>
          rw [hk] at hstep
          cases hstep
          exact h
      | some tx =>
          rw [hk] at hstep
          have htx := h.txs tx (tx?_mem hk)
          cases hstep
          unfold Ideal.commit
          split
          · refine h.set h.com k ?_
            rintro tx' ⟨⟩
            exact htx
          · refine h.set (Ideal.install_all h.com hc htx) k ?_
            rintro tx' ⟨⟩
  | abort k =>
      simp only [IdealWorld.step] at hstep
      split at hstep
      · cases hstep
        exact h
      · cases hstep
        refine h.set h.com k ?_
        rintro tx' ⟨⟩
  | exec sql =>
      simp only [IdealWorld.step] at hstep
      cases hexec : w.d.exec sql with
      | error f =>
          simp only [bind, Except.bind, hexec] at hstep
          cases hstep
      | ok r =>
          simp only [bind, Except.bind, hexec] at hstep
          cases hstep
          exact ⟨Ideal.exec_all h.com hc hexec, h.txs⟩
  | batch sqls tx =>
      simp only [IdealWorld.step] at hstep
      cases hbatch : w.d.batch sqls tx with
      | error f =>
          simp only [bind, Except.bind, hbatch] at hstep
          cases hstep
      | ok r =>
          simp only [bind, Except.bind, hbatch] at hstep
          cases hstep
          exact ⟨Ideal.batch_all h.com hc hbatch, h.txs⟩
  | snap =>
      cases hstep
      exact ⟨h.com, h.txs⟩
  | read k sql =>
      simp only [IdealWorld.step] at hstep
      split at hstep
      · cases hstep
        exact h
      · rename_i s seen hk
        cases hread : w.d.read s seen sql with
        | error f =>
            simp only [bind, Except.bind, hread] at hstep
            cases hstep
        | ok r =>
            simp only [bind, Except.bind, hread] at hstep
            cases hstep
            exact h
  | done k =>
      simp only [IdealWorld.step] at hstep
      split at hstep
      · cases hstep
        exact h
      · cases hstep
        exact ⟨h.com, h.txs⟩

theorem Has.run (hc : Closed P) : ∀ (calls : List Call) {w w' : IdealWorld} {outs : List Out},
    w.Has P → w.run calls = .ok (w', outs) → w'.Has P
  | [], w, w', outs, h, hrun => by
      cases hrun
      exact h
  | c :: calls, w, w', outs, h, hrun => by
      rw [IdealWorld.run] at hrun
      cases hstep : w.step c with
      | error f =>
          simp only [bind, Except.bind, hstep] at hrun
          cases hrun
      | ok r =>
          have h₁ := h.step hc hstep
          simp only [bind, Except.bind, hstep] at hrun
          cases hrest : IdealWorld.run r.1 calls with
          | error f =>
              rw [hrest] at hrun
              cases hrun
          | ok r₂ =>
              rw [hrest] at hrun
              cases hrun
              exact Has.run hc calls h₁ hrest

end IdealWorld

theorem TabVer.Shape.with_verId {tab : TabVer} (h : tab.Shape) (ver : Nat) :
    ({ tab with verId := ver } : TabVer).Shape :=
  ⟨h.1, h.2, h.3, h.4, h.5, h.6, h.7, h.8, h.9, h.10⟩

theorem shape_closed : Closed fun _ tab => tab.Shape where
  clone := fun h hc => (h.tabClone hc).1
  exec := fun h hrun => (h.execStmt hrun).1
  ver := fun v h => h.with_verId v

namespace World

variable {files : Bytes → Option Bytes} {maxSql maxQry : Int}

theorem loadable_eq {name : Bytes} {file : Option Bytes} {tab : TabVer}
    (h : loadable name file = some tab) : tabLoad name file = .ok (some tab) := by
  unfold loadable at h
  split at h
  · rename_i t ht
    cases h
    exact ht
  · cases h

/-- A closed property of the files holds of every committed table of a run. -/
theorem com_of_closed (hc : Closed P)
    (hfiles : ∀ name tab, tabLoad name (files name) = .ok (some tab) → P name tab)
    {calls : List Call} {w : World} {outs : List Out}
    (hrun : (init files maxSql maxQry).run calls = .ok (w, outs)) : AllTabs P w.db.com := by
  obtain ⟨hideal, -⟩ := (init_inv files maxSql maxQry).run_ok calls hrun
  have h₀ : (init files maxSql maxQry).abs.Has P :=
    ⟨fun name tab h => hfiles name tab (loadable_eq h), fun _ h => nomatch h⟩
  exact (h₀.run hc calls hideal).com

theorem com_shape {calls : List Call} {w : World} {outs : List Out}
    (hrun : (init files maxSql maxQry).run calls = .ok (w, outs)) :
    AllTabs (fun _ tab => tab.Shape) w.db.com :=
  com_of_closed shape_closed (fun _ _ h => (TabVer.tabLoad_shape h).1) hrun

end World

end MiniDbms
