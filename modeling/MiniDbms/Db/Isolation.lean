import MiniDbms.Db.World

/-!
# Snapshot isolation

Every run of calls answers as the abstract database does, in which a snapshot is
a copy of the committed content.  The exceptions are calls that leave the memory
of the store: a transaction that uses a table after the registry was moved by
the loading of another one, an INSERT behind the rows of a working copy, and a
header with too many UK columns.
-/

namespace MiniDbms

namespace World

/-- The run answers as the abstract database, and no live snapshot misses a table. -/
def Isolated (files : Bytes → Option Bytes) (maxSql maxQry : Int) (calls : List Call) : Prop :=
  ∃ w outs, (init files maxSql maxQry).run calls = .ok (w, outs) ∧
    (IdealWorld.init files maxSql maxQry).run calls = .ok (w.abs, outs) ∧
    ∀ s ∈ w.db.mv.snaps, ∀ e ∈ w.db.tabs, ∃ a, w.db.tabVis s e.chain = .ok (some a)

theorem Inv.tabVis {w : World} (hinv : Inv w) {s : Nat} (hs : s ∈ w.db.mv.snaps) {e : TabEnt}
    (he : e ∈ w.db.tabs) : ∃ a, w.db.tabVis s e.chain = .ok (some a) := by
  obtain ⟨k, hk⟩ := List.mem_iff_getElem?.1 he
  obtain ⟨a, ha⟩ := hinv.sees s hs k e hk
  refine ⟨a, ?_⟩
  rw [Db.tabVis_eq]
  · unfold Db.visAddr at ha
    rw [hk, Option.bind_some] at ha
    rw [ha]
  · intro b hb
    obtain ⟨t, ht, -⟩ := (hinv.wf.chain e he).live b hb
    exact ⟨t, ht⟩

/-- **Snapshot isolation** of every run whose calls stay inside the memory of the
store. -/
theorem isolated_of_calm (files : Bytes → Option Bytes) (maxSql maxQry : Int) (calls : List Call)
    (h : (init files maxSql maxQry).CalmRun calls) : Isolated files maxSql maxQry calls := by
  have hinv := init_inv files maxSql maxQry
  obtain ⟨w, outs, hrun⟩ := hinv.run_calm calls h
  obtain ⟨hideal, hinv'⟩ := hinv.run_ok calls hrun
  exact ⟨w, outs, hrun, hideal, fun s hs e he => hinv'.tabVis hs he⟩

/-- A long reader beside a writer and an overlapping transaction. -/
theorem isolated_reader_beside_writer :
    Isolated (fun _ => some (str "id(PK),v\n1,a\n")) 0 8
      [.begin, .txdo 0 (str "SELECT * FROM t"), .exec (str "UPDATE t SET v = 'b' WHERE id = 1"),
        .txdo 0 (str "SELECT * FROM t"), .snap, .commit 0, .read 0 (str "SELECT * FROM t"),
        .done 0] :=
  isolated_of_calm _ _ _ _ (by decide +kernel)

/-- Loading a ninth table moves the registry, and the transaction that looked at the
first one before follows a dangling pointer. -/
theorem not_isolated_after_ninth_table :
    ¬ Isolated (fun _ => some (str "id(PK)\n1\n")) 0 8
      [.begin, .txdo 0 (str "SELECT * FROM a"), .exec (str "SELECT * FROM b"),
        .exec (str "SELECT * FROM c"), .exec (str "SELECT * FROM d"),
        .exec (str "SELECT * FROM e"), .exec (str "SELECT * FROM f"),
        .exec (str "SELECT * FROM g"), .exec (str "SELECT * FROM h"),
        .exec (str "SELECT * FROM i"), .txdo 0 (str "SELECT * FROM a")] := by
  rintro ⟨w, outs, hrun, -⟩
  have hstale : (init (fun _ => some (str "id(PK)\n1\n")) 0 8).run
      [.begin, .txdo 0 (str "SELECT * FROM a"), .exec (str "SELECT * FROM b"),
        .exec (str "SELECT * FROM c"), .exec (str "SELECT * FROM d"),
        .exec (str "SELECT * FROM e"), .exec (str "SELECT * FROM f"),
        .exec (str "SELECT * FROM g"), .exec (str "SELECT * FROM h"),
        .exec (str "SELECT * FROM i"), .txdo 0 (str "SELECT * FROM a")] = .error .staleEnt := by
    decide +kernel
  rw [hstale] at hrun
  cases hrun

end World

end MiniDbms
