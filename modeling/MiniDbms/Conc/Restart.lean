import MiniDbms.Conc.Aside
import MiniDbms.Conc.Kept
import MiniDbms.Db.Reach
import MiniDbms.Db.Saved

/-!
# Restarts

A commit section saves every table it publishes, so at each moment the files hold the text of
the committed tables.  A process that is started on these files finds a table as it was exactly
when the text of the table brings it back.
-/

namespace MiniDbms

namespace Db

variable {files : Bytes → Option Bytes} {db db' : Db} {ws : List Nat} {n : Bytes}

/-- A table nobody has committed to is what its file says, and every other one is in its file
as `tab_save` writes it. -/
def OnDisk (files : Bytes → Option Bytes) (db : Db) (n : Bytes) : Prop :=
  (db.files n = files n ∧ db.com n = loadable n (files n)) ∨
    ∃ tab, db.com n = some tab ∧ 1 < tab.verId ∧ tab.Shape ∧ db.files n = some (csvText tab)

theorem OnDisk.congr (h : OnDisk files db n) (hfiles : db'.files = db.files)
    (hcom : db'.com = db.com) : OnDisk files db' n := by
  unfold OnDisk
  rw [hfiles, hcom]
  exact h

theorem Needs.sameFiles (h : Needs db db') : db'.files = db.files := by
  rcases h with rfl | ⟨n, k?, hneed⟩
  · rfl
  · have hc := db.needEnt_cases n
    rw [hneed] at hc
    cases hc with
    | there hg => rfl
    | missing hg hl => rfl
    | @loaded tab hg hl =>
        unfold addTab addEnt
        split
        · rfl
        · rfl

theorem gcPrune_sameFiles (hwf : db.Wf ws) {keep : Nat} (h : db.gcPrune keep = .ok db') :
    db'.files = db.files := by
  obtain ⟨db₁, hrun, hp, -⟩ := hwf.gcPrune keep
  rw [h] at hrun
  cases hrun
  rw [hp.frame]

/-- **A table is published and saved.** -/
theorem Ready.onDisk {k a ver : Nat} {e : TabEnt} {tab : TabVer} (h : Ready db ws k a e tab ver)
    (hd : OnDisk files db n) : OnDisk files (db.installed k a e tab ver) n := by
  have hcom := h.installed_spec.2.2 n
  have hfile : (db.installed k a e tab ver).files n =
      if n = tab.name then some (csvText { tab with verId := ver }) else db.files n := rfl
  rw [h.name] at hfile
  by_cases hn : n = e.name
  · rw [if_pos hn] at hcom hfile
    refine Or.inr ⟨_, hcom, ?_, ?_, hfile⟩
    · -- the head it takes the place of is older, and has a number
      have hchain := h.wf.chain e (List.mem_of_getElem? h.ent)
      obtain ⟨b, hb⟩ := List.exists_mem_of_ne_nil _ hchain.nonempty
      obtain ⟨t, ht, -, -, hpos, -⟩ := hchain.live b hb
      exact Nat.lt_of_le_of_lt hpos (h.newer b hb t ht)
    · exact h.shape.with_verId ver
  · rw [if_neg hn] at hcom hfile
    unfold OnDisk
    rw [hcom, hfile]
    exact hd

end Db

namespace Conc

variable {m m' : Conc} {i : Nat} {t : TxThread} {l : Label} {files : Bytes → Option Bytes}
  {n : Bytes}

theorem TxStep.sameFiles (h : Inv m) (hi : m.threads[i]? = some (.tx t)) (hs : TxStep m i t m')
    (hfree : ∀ ver k, t.pc ≠ .install ver k) : m'.db.files = m.db.files := by
  obtain ⟨A, B, hm, rfl⟩ := split_thread hi
  have hwf : m.db.Wf (t.tx.works ++ worksOf (A ++ B)) := h.wf_split hm
  have hsafe : SafeAt m.db m.owner (t.tx.works ++ worksOf (A ++ B)) A.length t.tx t.pc :=
    h.safe_split hm
  cases hs with
  | view hpc hask howner hrun => exact (Db.txView_needs hwf hrun).sameFiles
  | look hpc hjob howner hrun => exact (Db.doRead_needs hrun).sameFiles
  | @run item? stmt db' tx' res ok hpc hrun =>
      rw [hpc] at hsafe
      have hcase := runCase_of_run hsafe.ok hrun
      cases hcase <;> rfl
  | install hpc hk hd hrun => exact absurd hpc (hfree _ _)
  | prune hpc howner hrun => exact Db.gcPrune_sameFiles hwf hrun
  | unparsed hpc hjob => rfl
  | commit hmay howner hrun => rfl
  | conflict hmay howner hrun => rfl
  | skip hpc hk hd => rfl
  | finish hpc hk => rfl
  | abort hmay hrun => rfl
  | gc hpc => rfl
  | stat hpc => rfl
  | retry hpc hjob herr => rfl

theorem ReqStep.sameFiles {sql : Bytes} {stmt : Statement} {pc : ReqPc} (h : Inv m)
    (hs : ReqStep m i sql stmt pc m') : m'.db.files = m.db.files := by
  cases hs with
  | start howner hrun => exact (Db.dbTabVer_needs hrun).sameFiles
  | read howner hrun => exact (Db.doRead_needs hrun).sameFiles
  | stored howner hver hrun => exact Db.gcPrune_sameFiles h.wf hrun
  | ended howner hrun => exact Db.gcPrune_sameFiles h.wf hrun
  | hit hrun => rfl
  | miss hrun => rfl
  | snap => rfl
  | gc => rfl
  | stat => rfl
  | store => rfl

theorem Publishes.onDisk {ver k : Nat} (h : Inv m) (hi : m.threads[i]? = some (.tx t))
    (hpc : t.pc = .install ver k) (hs : Publishes m i t ver k m') (hd : Db.OnDisk files m.db n) :
    Db.OnDisk files m'.db n := by
  obtain ⟨A, B, hm, rfl⟩ := split_thread hi
  have hwf : m.db.Wf (t.tx.works ++ worksOf (A ++ B)) := h.wf_split hm
  have hsafe : SafeAt m.db m.owner (t.tx.works ++ worksOf (A ++ B)) A.length t.tx t.pc :=
    h.safe_split hm
  rw [hpc] at hsafe
  cases hs with
  | skip hk hdirty => exact hd
  | finish hk => exact hd
  | @install it it' db' saved hk hdirty hrun =>
      obtain ⟨a, e, tab, -, -, hready, rfl, -⟩ :=
        hsafe.2.install (p := none) hwf hk hdirty hrun
      exact hready.onDisk hd

/-- **One step** keeps the files in line with the tables. -/
theorem Turn.onDisk (h : Inv m) (hturn : Turn m l m') (hd : Db.OnDisk files m.db n) :
    Db.OnDisk files m'.db n := by
  cases hturn with
  | idle => exact hd
  | tick ns => exact hd
  | spawn hjob => exact hd
  | request hparse hsel => exact hd
  | @tx _ i t _ hi hl hstep =>
      by_cases hin : ∃ ver k, t.pc = .install ver k
      · obtain ⟨ver, k, hpc⟩ := hin
        have hsafe : SafeAt m.db m.owner (worksOf m.threads) i t.tx t.pc := h.safe i _ hi
        rw [hpc] at hsafe
        exact (hstep.publishes hpc hsafe.1).onDisk h hi hpc hd
      · have hfree : ∀ ver k, t.pc ≠ .install ver k := fun ver k hpc => hin ⟨ver, k, hpc⟩
        refine hd.congr (hstep.sameFiles h hi hfree) ?_
        obtain ⟨A, B, hm, rfl⟩ := split_thread hi
        exact (hstep.aside h hm hfree).com
  | req hi hstep => exact hd.congr (hstep.sameFiles h) (hstep.aside h).com

theorem onDisk_of_run {maxSql maxQry : Int} {ttlNs : Nat} {ls : List Label}
    (hrun : Run.exec step (init files maxSql maxQry ttlNs) ls = .ok m) :
    ∀ n, Db.OnDisk files m.db n := by
  refine (Run.kept (I := fun m => Ok m ∧ ∀ n, Db.OnDisk files m.db n) (fun h hs => ?_)
    ⟨init_ok files maxSql maxQry ttlNs, fun n => Or.inl ⟨rfl, rfl⟩⟩ hrun).2
  obtain ⟨hok, hd⟩ := h
  obtain ⟨hok', hstep⟩ := hok.step hs
  obtain ⟨m₁, hturn, rfl⟩ := hstep.turn
  refine ⟨hok', fun n => ?_⟩
  have hd₁ := hturn.onDisk hok.inv (hd n)
  exact hd₁

/-- **Restarts.**  Whenever the process ends, between any two steps, one that is started on its
files finds the tables it had committed: no others, and each with its columns and its rows
exactly when it has not been committed to yet or is one that its file can hold. -/
theorem restart_finds_iff (files : Bytes → Option Bytes) (maxSql maxQry : Int) (ttlNs : Nat)
    (ls : List Label) (m : Conc)
    (hrun : Run.exec step (init files maxSql maxQry ttlNs) ls = .ok m) (n : Bytes) :
    (m.db.com n = none → (init m.db.files maxSql maxQry ttlNs).db.com n = none) ∧
      ∀ tab, m.db.com n = some tab →
        ((∃ tab', (init m.db.files maxSql maxQry ttlNs).db.com n = some tab' ∧
          tab.Restored tab') ↔ tab.verId = 1 ∨ tab.Storable) := by
  have hstart : (init m.db.files maxSql maxQry ttlNs).db.com n = loadable n (m.db.files n) := rfl
  rw [hstart]
  obtain ⟨hfile, hcom⟩ | ⟨tab, hcom, hver, hshape, hfile⟩ := onDisk_of_run hrun n
  · rw [hfile, hcom]
    refine ⟨fun h => h, fun tab htab => iff_of_true ⟨tab, htab, rfl, rfl, rfl, rfl⟩ (Or.inl ?_)⟩
    exact (TabVer.tabLoad_shape (World.loadable_eq htab)).2.2.1
  · rw [hfile, hcom]
    refine ⟨fun h => (by cases h), fun tab' htab => ?_⟩
    cases htab
    rw [or_iff_right hver.ne']
    constructor
    · rintro ⟨tab', hload, hsame⟩
      exact hshape.of_load (World.loadable_eq hload) hsame
    · intro hst
      obtain ⟨tab', hload, hsame⟩ := hst.load hshape n
      refine ⟨tab', ?_, hsame⟩
      unfold loadable
      rw [hload]

/-- A row with a comma in it, and the whole run of the `db_exec` that writes it. -/
def commaRow : List Label :=
  .exec (str "INSERT INTO t VALUES (2,'b,c')") :: List.replicate 12 (.move 0)

/-- The second version of the table is in front, and a process started now finds it. -/
def reopens (m : Conc) : Bool :=
  match m.db.com (str "t"), (init m.db.files 0 8 0).db.com (str "t") with
  | some tab, some tab' => tab.verId == 2 && tab'.cols == tab.cols && tab'.pkIdx == tab.pkIdx &&
      tab'.ukIdx == tab.ukIdx && tab'.rows == tab.rows
  | _, _ => false

theorem reopens_spec (h : reopens m = true) : ∃ tab tab', m.db.com (str "t") = some tab ∧
    (init m.db.files 0 8 0).db.com (str "t") = some tab' ∧ tab.verId = 2 ∧
      tab.Restored tab' := by
  unfold reopens at h
  split at h
  · rename_i tab tab' htab htab'
    simp only [Bool.and_eq_true, beq_iff_eq] at h
    obtain ⟨⟨⟨⟨hver, hcols⟩, hpk⟩, huk⟩, hrows⟩ := h
    exact ⟨tab, tab', htab, htab', hver, hcols, hpk, huk, hrows⟩
  · cases h

theorem restart_finds_iff_comma : ∃ m tab,
    Run.exec step (init (World.oneFile (str "id(PK),v\n1,a\n")) 0 8 0) commaRow = .ok m ∧
      m.db.com (str "t") = some tab ∧ tab.Storable := by
  obtain ⟨m, hrun, htest⟩ := Run.exists_of_reaches
    (show Run.reaches step (init (World.oneFile (str "id(PK),v\n1,a\n")) 0 8 0) commaRow
      reopens = true by decide +kernel)
  obtain ⟨tab, tab', htab, htab', hver, hsame⟩ := reopens_spec htest
  obtain ⟨-, hfinds⟩ := restart_finds_iff _ 0 8 0 commaRow m hrun (str "t")
  obtain hnew | hst := (hfinds tab htab).1 ⟨tab', htab', hsame⟩
  · rw [hver] at hnew
    cases hnew
  · exact ⟨m, tab, hrun, htab, hst⟩

end Conc

end MiniDbms
