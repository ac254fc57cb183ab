import MiniDbms.Conc.Accounts
import MiniDbms.Db.World

/-!
# Serial replay

Whatever the order of the threads, the committed content is what the write statements of the
successful commits make of the files, each commit run again alone and in the order of the
commits.
-/

namespace MiniDbms

open Versions Conc

namespace Conc

/-- The statements of a commit on the tables it wrote. -/
def Commit.writes (c : Commit) : List Statement :=
  c.stmts.filter fun stmt => c.tabs.contains stmt.tableName.bytes

end Conc

/-- Commits one after another, each as a transaction that is alone. -/
def Ideal.serially : Ideal → List Commit → Except Fault Ideal
  | d, [] => .ok d
  | d, c :: cs => do
    let d ← d.redo c.writes
    d.serially cs

theorem Ideal.serially_snoc {c : Commit} : ∀ {cs : List Commit} {d d' d'' : Ideal},
    d.serially cs = .ok d' → d'.redo c.writes = .ok d'' → d.serially (cs ++ [c]) = .ok d''
  | [], d, d', d'', h, hc => by
      cases h
      rw [List.nil_append, serially, hc]
      rfl
  | c₀ :: cs, d, d', d'', h, hc => by
      obtain ⟨d₁, hfirst, hrest⟩ := bind_ok.1 h
      rw [List.cons_append, serially, hfirst]
      exact serially_snoc hrest hc

namespace Db

variable {db db' : Db} {tx tx' : DbTx} {mine mine' others ws : List Nat} {p : Option Nat}
  {n : Bytes} {log : List Statement}

/-! ## The statements of a commit -/

theorem onTable_writes (c : Commit) (n : Bytes) :
    onTable n c.writes = if n ∈ c.tabs then onTable n c.stmts else [] := by
  unfold onTable Commit.writes
  rw [List.filter_filter]
  split
  · rename_i hn
    refine List.filter_congr fun stmt _ => ?_
    by_cases hstmt : stmt.tableName.bytes = n
    · simp [hstmt, hn]
    · simp [hstmt]
  · rename_i hn
    refine List.filter_eq_nil_iff.2 fun stmt _ => ?_
    by_cases hstmt : stmt.tableName.bytes = n
    · simp [hstmt, hn]
    · simp [hstmt]

theorem mem_written : n ∈ written db tx ↔
    ∃ it ∈ tx.tabs, it.dirty = true ∧ db.named n it = true := by
  unfold written
  rw [List.mem_filterMap]
  constructor
  · rintro ⟨it, hit, hname⟩
    obtain ⟨hmem, hd⟩ := List.mem_filter.1 hit
    obtain ⟨e, he, rfl⟩ := Option.map_eq_some_iff.1 hname
    exact ⟨it, hmem, hd, named_iff.2 ⟨e, he, rfl⟩⟩
  · rintro ⟨it, hit, hd, hnamed⟩
    obtain ⟨e, he, rfl⟩ := named_iff.1 hnamed
    exact ⟨it, List.mem_filter.2 ⟨hit, hd⟩, by rw [he, Option.map_some]⟩

theorem txWork_some {w : TabVer} (h : db.txWork tx n = some w) :
    ∃ it ∈ tx.tabs, db.named n it = true ∧ ∃ a, it.work = some a ∧ db.heap.get a = some w := by
  unfold txWork at h
  obtain ⟨it, hfind, hw⟩ := Option.bind_eq_some_iff.1 h
  obtain ⟨a, ha, hget⟩ := Option.bind_eq_some_iff.1 hw
  exact ⟨it, List.mem_of_find?_eq_some hfind, by simpa using List.find?_some hfind, a, ha, hget⟩

theorem txWork_named {it : TxTab} {a : Nat} (hwf : db.Wf ws) (hok : db.TxOk tx) (hit : it ∈ tx.tabs)
    (hnamed : db.named n it = true) (hw : it.work = some a) :
    db.txWork tx n = db.heap.get a := by
  unfold txWork
  cases hf : tx.tabs.find? (db.named n) with
  | none => exact absurd hnamed (by simpa using List.find?_eq_none.1 hf it hit)
  | some x =>
      have hx := hok.named_inj hwf (List.mem_of_find?_eq_some hf) hit
        (by simpa using List.find?_some hf) hnamed
      rw [hx, Option.bind_some, hw, Option.bind_some]

/-- **A transaction whose bases are still in front** can be run again alone. -/
theorem Follows.redo {d : Ideal} (h : Follows db tx log) (hrest : db.Rest ws tx) (hwf : db.Wf ws)
    (hcur : ∀ it ∈ tx.tabs, it.dirty = true → db.Current it) (hcom : db.com = d.com)
    (hwr : ∀ stmt ∈ log, stmt.isWr = true) (i ver : Nat) :
    d.redo (⟨i, ver, log, written db tx⟩ : Commit).writes =
      .ok (d.install { d.begin with work := db.txWork tx }) := by
  set c : Commit := ⟨i, ver, log, written db tx⟩ with hc
  -- a table with a working copy is one of the commit's, and a statement was about it
  have hcopy : ∀ n w, db.txWork tx n = some w → n ∈ c.tabs ∧ ∃ base tab,
      db.com n = some base ∧ base.tabClone = some tab ∧ tab.redo (onTable n log) = .ok w ∧
        onTable n log ≠ [] := by
    intro n w hw
    obtain ⟨it, hit, hnamed, a, ha, hget⟩ := txWork_some hw
    obtain ⟨e, base, tab, w', he, hbase, hclone, hget', hredo, hne⟩ := h.worked it hit a ha
    obtain ⟨e', he', rfl⟩ := named_iff.1 hnamed
    rw [he] at he'
    cases he'
    rw [hget] at hget'
    cases hget'
    have hd : it.dirty = true := by rw [hrest.ok.dirty it hit, ha, Option.isSome_some]
    obtain ⟨-, hhead⟩ := hcur it hit hd
    have hfront : db.com e.name = db.heap.get it.base := by
      unfold com
      rw [hwf.getEnt_eq he]
      dsimp only
      rw [hhead, Option.bind_some]
    have hlive : ∃ t, db.heap.get it.base = some t := by
      unfold headAddr at hhead
      rw [he, Option.bind_some] at hhead
      obtain ⟨t, ht, -⟩ := (hwf.chain e (List.mem_of_getElem? he)).live it.base
        (List.mem_of_mem_head? hhead)
      exact ⟨t, ht⟩
    have hbase' : db.heap.get it.base = some base := by
      rcases hbase with hsome | hnone
      · exact hsome
      · obtain ⟨t, ht⟩ := hlive
        rw [hnone] at ht
        cases ht
    exact ⟨mem_written.2 ⟨it, hit, hd, hnamed⟩, base, tab, hfront.trans hbase', hclone, hredo, hne⟩
  have hrun : d.begin.runEach c.writes = .ok { d.begin with work := db.txWork tx } := by
    refine IdealTx.runEach_eq (fun stmt hstmt => hwr stmt (List.mem_of_mem_filter hstmt))
      (fun n hn => ?_) fun n hn => ?_
    · cases hw : db.txWork tx n with
      | none => rfl
      | some w =>
          obtain ⟨hmem, -, -, -, -, -, hne⟩ := hcopy n w hw
          rw [onTable_writes, if_pos hmem] at hn
          exact absurd hn hne
    · rw [onTable_writes] at hn ⊢
      split at hn
      · rename_i hmem
        rw [if_pos hmem]
        obtain ⟨it, hit, hd, hnamed⟩ := mem_written.1 hmem
        rw [hrest.ok.dirty it hit] at hd
        obtain ⟨a, ha⟩ := Option.isSome_iff_exists.1 hd
        obtain ⟨e, -, -, w, -, -, -, hget, -⟩ := h.worked it hit a ha
        have hw : db.txWork tx n = some w := (txWork_named hwf hrest.ok hit hnamed ha).trans hget
        obtain ⟨-, base, tab, hfront, hclone, hredo, -⟩ := hcopy n w hw
        refine ⟨tab, w, ?_, hredo, hw⟩
        change ((d.com n).bind TabVer.tabClone) = some tab
        rw [← hcom, hfront, Option.bind_some, hclone]
      · exact absurd rfl hn
  unfold Ideal.redo
  rw [hrun]
  rfl

end Db

namespace Conc

variable {m m' : Conc} {t : TxThread} {i : Nat} {l : Label}

/-! ## The committed content -/

/-- Where the committed content stands; `d` is what the commits on record made of the files. -/
structure Stands (m : Conc) (d : Ideal) : Prop where
  idle : m.owner = none → m.db.com = d.com ∧ m.db.mv.curVer = d.ver
  busy : ∀ i, m.owner = some i → ∃ t ver k d', m.threads[i]? = some (.tx t) ∧
    t.pc = .install ver k ∧
    d.redo (⟨i, ver, t.log, written m.db t.tx⟩ : Commit).writes = .ok d' ∧ d'.ver = ver ∧
    Db.override (m.db.txWork ⟨t.tx.snapId, t.tx.tabs.drop k⟩) m.db.com ver = d'.com

def Replays (d₀ : Ideal) (m : Conc) : Prop := ∃ d, d₀.serially m.hist = .ok d ∧ Stands m d

theorem written_eq (db : Db) (tx : DbTx) : written db tx =
    (tx.tabs.map fun it => (it.dirty, it.ent.idx)).filterMap fun p =>
      if p.1 then (db.tabs.map TabEnt.name)[p.2]? else none := by
  unfold written
  rw [List.filterMap_map, List.filterMap_filter]
  refine List.filterMap_congr fun it _ => ?_
  dsimp only [Function.comp_apply]
  rw [List.getElem?_map]

theorem Stands.keep {d : Ideal} (h : Stands m d) (hinv : Inv m) (howner : m'.owner = m.owner)
    (hidle : m.owner = none → m'.db.com = m.db.com ∧ m'.db.mv.curVer = m.db.mv.curVer)
    (hbusy : ∀ j, m.owner = some j → m'.threads[j]? = m.threads[j]? ∧ Db.Quiet m.db m'.db ∧
      ∀ x, m.threads[j]? = some (.tx x) →
        ∀ a ∈ x.tx.works, m'.db.heap.get a = m.db.heap.get a) : Stands m' d where
  idle := fun ho => by
    rw [howner] at ho
    obtain ⟨hcom, hcur⟩ := hidle ho
    rw [hcom, hcur]
    exact h.idle ho
  busy := fun j hj => by
    rw [howner] at hj
    obtain ⟨x, ver, k, d', hx, hpc, hredo, hver, hover⟩ := h.busy j hj
    obtain ⟨hthread, hquiet, hworks⟩ := hbusy j hj
    have hsafe : SafeAt m.db m.owner (worksOf m.threads) j x.tx x.pc := hinv.safe j _ hx
    rw [hpc] at hsafe
    obtain ⟨hst, hcom⟩ := hquiet.stable
    have hwork := (hsafe.2.ok.stable hst fun a ha => hworks x hx a (by
      obtain ⟨it, hit, hw⟩ := List.mem_filterMap.1 ha
      exact Db.mem_works (List.mem_of_mem_drop hit) hw)).2
    have htabs : m'.db.tabs = m.db.tabs := by rw [hquiet.frame]
    refine ⟨x, ver, k, d', hthread.trans hx, hpc, ?_, hver, ?_⟩
    · rw [written_eq, htabs, ← written_eq]
      exact hredo
    · rw [hwork, hcom, hover]

theorem TxStep.hist_free (hs : TxStep m i t m') (hfree : ∀ ver k, t.pc ≠ .install ver k) :
    m'.hist = m.hist := by
  cases hs with
  | finish hpc hk => exact absurd hpc (hfree _ _)
  | _ => rfl

theorem TxStep.enters (hs : TxStep m i t m') (hfree : ∀ ver k, t.pc ≠ .install ver k)
    (howner : m'.owner ≠ m.owner) : MayCommit t ∧ m.owner = none ∧
      m.db.commitCheck t.tx.tabs = .ok true ∧ m' = { m with
        db := { m.db with mv := m.db.mv.mvBump }
        owner := some i }.set i (.tx { t with pc := .install m.db.mv.mvBump.curVer 0 }) := by
  cases hs with
  | commit hmay ho hrun => exact ⟨hmay, ho, hrun, rfl⟩
  | finish hpc hk => exact absurd hpc (hfree _ _)
  | _ => exact absurd rfl howner

/-- **The commit section begins.** -/
theorem Stands.enter {d : Ideal} {others : List Nat} (hst : Stands m d) (hacc : Accounts m t)
    (hi : m.threads[i]? = some (.tx t)) (hmay : MayCommit t) (howner : m.owner = none)
    (hrest : m.db.Rest (t.tx.works ++ others) t.tx) (hwf : m.db.Wf (t.tx.works ++ others))
    (hrun : m.db.commitCheck t.tx.tabs = .ok true) :
    Stands ({ m with
      db := { m.db with mv := m.db.mv.mvBump }
      owner := some i }.set i (.tx { t with pc := .install m.db.mv.mvBump.curVer 0 })) d where
  idle := fun ho => by cases ho
  busy := fun j hj => by
    cases hj
    obtain ⟨hcom, hver⟩ := hst.idle howner
    have hcur : ∀ it ∈ t.tx.tabs, it.dirty = true → m.db.Current it := by
      rcases Db.commitCheck_cases m.db t.tx.tabs with ⟨-, hcur⟩ | ⟨hcheck, -⟩ | ⟨hcheck, -⟩
      · exact hcur
      · cases hrun.symm.trans hcheck
      · cases hrun.symm.trans hcheck
    have hredo := (hacc.follows (Or.inl hmay.atRest)).redo (d := d) hrest hwf hcur hcom
      hacc.writes i m.db.mv.mvBump.curVer
    refine ⟨_, _, _, _, List.getElem?_set_self (List.getElem?_eq_some_iff.1 hi).1, rfl, hredo, ?_,
      ?_⟩
    · exact congrArg (· + 1) hver.symm
    · change Db.override (m.db.txWork t.tx) m.db.com (m.db.mv.curVer + 1) =
        Db.override (m.db.txWork t.tx) d.com (d.ver + 1)
      rw [hcom, hver]

/-- **The commit section goes on.** -/
theorem Publishes.replays {d₀ : Ideal} {ver k : Nat} (h : Inv m)
    (hi : m.threads[i]? = some (.tx t)) (hpc : t.pc = .install ver k)
    (hs : Publishes m i t ver k m') (hr : Replays d₀ m) : Replays d₀ m' := by
  obtain ⟨A, B, hm, rfl⟩ := split_thread hi
  have hwf : m.db.Wf (t.tx.works ++ worksOf (A ++ B)) := h.wf_split hm
  have hsafe : SafeAt m.db m.owner (t.tx.works ++ worksOf (A ++ B)) A.length t.tx t.pc :=
    h.safe_split hm
  rw [hpc] at hsafe
  obtain ⟨howner, hinst⟩ := hsafe
  have hlt := (List.getElem?_eq_some_iff.1 hi).1
  have hself := fun t' : Thread => List.getElem?_set_self (a := t') hlt
  obtain ⟨d, hd, hst⟩ := hr
  obtain ⟨t₁, ver₁, k₁, d', hi₁, hpc₁, hredo, hver, hover⟩ := hst.busy _ howner
  rw [hi] at hi₁
  cases hi₁
  rw [hpc] at hpc₁
  cases hpc₁
  cases hs with
  | @skip it hk hdirty =>
      refine ⟨d, hd, fun ho => ?_, fun j hj => ?_⟩
      · cases howner.symm.trans ho
      · cases howner.symm.trans hj
        refine ⟨_, _, _, d', hself _, rfl, hredo, hver, ?_⟩
        obtain ⟨hlt, rfl⟩ := List.getElem?_eq_some_iff.1 hk
        have hinst' := hinst.installing hwf
        rw [List.drop_eq_getElem_cons hlt] at hinst' hover
        rw [(hinst'.skip hdirty).2] at hover
        exact hover
  | @install it it' db' saved hk hdirty hrun =>
      obtain ⟨a, e, tab, hw, hent, hready, rfl, rfl, -, -⟩ :=
        hinst.install (p := none) hwf hk hdirty hrun
      obtain ⟨hlt, hget⟩ := List.getElem?_eq_some_iff.1 hk
      have hinst' := hinst.installing hwf
      rw [List.drop_eq_getElem_cons hlt, hget] at hinst' hover
      refine ⟨d, hd, fun ho => ?_, fun j hj => ?_⟩
      · cases howner.symm.trans ho
      · cases howner.symm.trans hj
        refine ⟨_, _, _, d', hself _, rfl, ?_, hver, ?_⟩
        · -- the names of the written tables are the same
          have hnames : (m.db.installed it.ent.idx a e tab ver).tabs.map TabEnt.name =
              m.db.tabs.map TabEnt.name := hready.names
          have hitems : (t.tx.tabs.set k { it with work := none }).map
              (fun it => (it.dirty, it.ent.idx)) =
                t.tx.tabs.map fun it => (it.dirty, it.ent.idx) := by
            rw [List.map_set]
            refine List.ext_getElem? fun j => ?_
            rw [List.getElem?_set]
            split
            · rename_i hj
              rw [← hj, List.getElem?_map, hk, List.length_map, if_pos hlt]
              rfl
            · rfl
          change d.redo (⟨A.length, ver, t.log, written (m.db.installed it.ent.idx a e tab ver)
            { t.tx with tabs := t.tx.tabs.set k { it with work := none } }⟩ : Commit).writes = _
          rw [written_eq, hnames, hitems, ← written_eq]
          exact hredo
        · dsimp only
          rw [List.drop_set_of_lt (Nat.lt_succ_self k)]
          exact (hinst'.install hready hw).2.trans hover
  | finish hk =>
      have hnil : t.tx.tabs.drop k = [] := List.drop_eq_nil_of_le (List.getElem?_eq_none_iff.1 hk)
      rw [hnil] at hover
      refine ⟨d', Ideal.serially_snoc hd hredo, fun _ => ⟨?_, ?_⟩, fun j hj => by cases hj⟩
      · exact hover
      · exact hinst.cur.symm.trans hver.symm

theorem TxStep.replays {d₀ : Ideal} (h : Inv m) (hacc : Accounts m t)
    (hi : m.threads[i]? = some (.tx t)) (hs : TxStep m i t m') (hr : Replays d₀ m) :
    Replays d₀ m' := by
  by_cases hin : ∃ ver k, t.pc = .install ver k
  · obtain ⟨ver, k, hpc⟩ := hin
    have hsafe : SafeAt m.db m.owner (worksOf m.threads) i t.tx t.pc := h.safe i _ hi
    rw [hpc] at hsafe
    exact (hs.publishes hpc hsafe.1).replays h hi hpc hr
  · obtain ⟨A, B, hm, rfl⟩ := split_thread hi
    have hfree : ∀ ver k, t.pc ≠ .install ver k := fun ver k hpc => hin ⟨ver, k, hpc⟩
    obtain ⟨d, hd, hst⟩ := hr
    refine ⟨d, (hs.hist_free hfree).symm ▸ hd, ?_⟩
    by_cases howner : m'.owner = m.owner
    · obtain ⟨hcur, hquiet⟩ := hs.quiet h hm hfree howner
      have haside := hs.aside h hm hfree
      obtain ⟨mine', p, hsec⟩ := haside.sec
      refine hst.keep h howner (fun _ => ⟨haside.com, hcur⟩) fun j hj => ?_
      have hne : j ≠ A.length := by
        rintro rfl
        obtain ⟨x, hx, hc⟩ := h.owner _ hj
        rw [hi] at hx
        cases hx
        exact hin (commits_tx.1 hc)
      refine ⟨hs.threads hne, hquiet (by simp [hj]), fun x hx a ha => hsec.works a ?_⟩
      exact mem_worksOf (t := .tx x) (mem_other hne (hm ▸ hx)) ha
    · obtain ⟨hmay, hnone, hrun, rfl⟩ := hs.enters hfree howner
      have hsafe : SafeAt m.db m.owner (t.tx.works ++ worksOf (A ++ B)) A.length t.tx t.pc :=
        h.safe_split hm
      exact hst.enter hacc hi hmay hnone (hmay.atRest.safe.1 hsafe) (h.wf_split hm) hrun

theorem ReqStep.replays {d₀ : Ideal} {sql : Bytes} {stmt : Statement} {pc : ReqPc} (h : Inv m)
    (hi : m.threads[i]? = some (.req sql stmt pc)) (hs : ReqStep m i sql stmt pc m')
    (hr : Replays d₀ m) : Replays d₀ m' := by
  obtain ⟨d, hd, hst⟩ := hr
  obtain ⟨howner, hhist, hcur, hquiet⟩ := hs.quiet h
  have haside := hs.aside h
  obtain ⟨mine', p, hsec⟩ := haside.sec
  refine ⟨d, hhist.symm ▸ hd, hst.keep h howner (fun _ => ⟨haside.com, hcur⟩) fun j hj => ?_⟩
  have hne : j ≠ i := by
    rintro rfl
    obtain ⟨x, hx, hc⟩ := h.owner _ hj
    rw [hi] at hx
    cases hx
    exact req_not_commits hc
  obtain ⟨pc', hset⟩ := hs.threads
  refine ⟨?_, hquiet (by simp [hj]), fun x hx a ha =>
    hsec.works a (mem_worksOf (t := .tx x) (List.mem_of_getElem? hx) ha)⟩
  rw [hset, List.getElem?_set_ne (Ne.symm hne)]

theorem Turn.replays {d₀ : Ideal} (h : Inv m)
    (hacc : ∀ (j : Nat) t, m.threads[j]? = some (.tx t) → Accounts m t) (hturn : Turn m l m')
    (hr : Replays d₀ m) : Replays d₀ m' := by
  have happend : ∀ (x : Thread) j, m.owner = some j →
      (m.threads ++ [x])[j]? = m.threads[j]? := fun x j hj => by
    obtain ⟨y, hy, -⟩ := h.owner j hj
    exact List.getElem?_append_left (List.getElem?_eq_some_iff.1 hy).1
  cases hturn with
  | idle => exact hr
  | tick ns =>
      obtain ⟨d, hd, hst⟩ := hr
      exact ⟨d, hd, hst.idle, hst.busy⟩
  | spawn hjob =>
      obtain ⟨d, hd, hst⟩ := hr
      exact ⟨d, hd, hst.keep h rfl (fun _ => ⟨rfl, rfl⟩) fun j hj =>
        ⟨happend _ j hj, ⟨rfl, rfl, fun _ _ => rfl⟩, fun _ _ _ _ => rfl⟩⟩
  | request hparse hsel =>
      obtain ⟨d, hd, hst⟩ := hr
      exact ⟨d, hd, hst.keep h rfl (fun _ => ⟨rfl, rfl⟩) fun j hj =>
        ⟨happend _ j hj, Db.Quiet.refl _, fun _ _ _ _ => rfl⟩⟩
  | tx hi hl hstep => exact hstep.replays h (hacc _ _ hi) hi hr
  | req hi hstep => exact hstep.replays h hi hr

/-! ## All along a run -/

/-- **In every reachable state** the threads can account for what they did, and the commits on
record account for the content. -/
theorem replays_of_run {files : Bytes → Option Bytes} {maxSql maxQry : Int} {ttlNs : Nat}
    {ls : List Label} (hrun : Run.exec step (init files maxSql maxQry ttlNs) ls = .ok m) :
    Ok m ∧ (∀ (j : Nat) t, m.threads[j]? = some (.tx t) → Accounts m t) ∧
      Replays (dbOpen files maxSql maxQry).abs m := by
  refine Run.kept (I := fun m => Ok m ∧
    (∀ (j : Nat) t, m.threads[j]? = some (.tx t) → Accounts m t) ∧
      Replays (dbOpen files maxSql maxQry).abs m) (fun h hs => ?_)
    ⟨init_ok files maxSql maxQry ttlNs, by simp [init], _, rfl, fun _ => ⟨rfl, rfl⟩, by simp [init]⟩
    hrun
  obtain ⟨hok, hacc, hr⟩ := h
  obtain ⟨hok', hstep⟩ := hok.step hs
  obtain ⟨m₁, hturn, rfl⟩ := hstep.turn
  obtain ⟨d, hd, hst⟩ := hturn.replays hok.inv hacc hr
  exact ⟨hok', fun j t hj => (hturn.accounts hok.inv hacc hj).congr rfl rfl,
    d, hd, hst.idle, hst.busy⟩

/-- **No update is lost, and none is made up.**  Whatever the order of the threads, the commits
on record can be run again one after another, each alone; when no thread is inside its commit
section, the tables are what they come to. -/
theorem commits_replay_serially (files : Bytes → Option Bytes) (maxSql maxQry : Int) (ttlNs : Nat)
    (ls : List Label) (m : Conc)
    (hrun : Run.exec step (init files maxSql maxQry ttlNs) ls = .ok m) :
    ∃ d, (dbOpen files maxSql maxQry).abs.serially m.hist = .ok d ∧
      (m.owner = none → m.db.com = d.com ∧ m.db.mv.curVer = d.ver) := by
  obtain ⟨-, -, d, hd, hst⟩ := replays_of_run hrun
  exact ⟨d, hd, hst.idle⟩

/-- A client commits a row between the statement and the commit of a `db_exec`, which then makes
a second attempt. -/
def racedInserts : List Label :=
  [.exec (str "INSERT INTO t VALUES (2,b)"), .move 0, .move 0, .begin,
    .call 1 (.txdo (str "INSERT INTO t VALUES (3,c)")), .move 1, .call 1 .commit] ++
    List.replicate 2 (.move 1) ++ List.replicate 14 (.move 0)

theorem commits_replay_serially_raced : ∃ m d,
    Run.exec step (init (World.oneFile (str "id(PK),v\n1,a\n")) 0 8 0) racedInserts = .ok m ∧
      m.hist.map Commit.thread = [1, 0] ∧
      (dbOpen (World.oneFile (str "id(PK),v\n1,a\n")) 0 8).abs.serially m.hist = .ok d ∧
      m.db.com = d.com := by
  obtain ⟨m, hrun, htest⟩ := Run.exists_of_reaches
    (show Run.reaches step (init (World.oneFile (str "id(PK),v\n1,a\n")) 0 8 0) racedInserts
      (fun m => m.owner.isNone && m.hist.map Commit.thread == [1, 0]) = true by decide +kernel)
  obtain ⟨howner, hhist⟩ := Bool.and_eq_true_iff.1 htest
  obtain ⟨d, hd, hidle⟩ := commits_replay_serially _ 0 8 0 racedInserts m hrun
  exact ⟨m, d, hrun, eq_of_beq hhist, hd, (hidle (Option.isNone_iff_eq_none.1 howner)).1⟩

end Conc

end MiniDbms
