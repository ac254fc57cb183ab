import MiniDbms.Conc.Snapshots

/-!
# Commits are seen whole

A snapshot that is as new as a commit sees, in every table the commit wrote, the new
version or a later one, and an older snapshot sees none of them.
-/

namespace MiniDbms

open Versions

/-- The version that `tab_vis` finds for a snapshot. -/
def Db.tabSeen (db : Db) (s : Nat) (name : Bytes) : Option TabVer :=
  ((db.getEnt name).bind fun k => db.tabs[k]?).bind fun ent =>
    match db.tabVis s ent.chain with
    | .ok (some a) => db.heap.get a
    | _ => none

theorem Db.tabSeen_eq {db : Db} {ws : List Nat} (h : db.Wf ws) (s : Nat) (n : Bytes) :
    db.tabSeen s n = visible TabVer.verId s (db.vers n) := by
  unfold tabSeen
  cases hk : db.getEnt n with
  | none =>
      rw [vers_none hk]
      rfl
  | some k =>
      obtain ⟨e, he, -⟩ := getEnt_spec hk
      have hlive : ∀ a ∈ e.chain, ∃ t, db.heap.get a = some t := fun a ha => by
        obtain ⟨t, ht, -⟩ := (h.chain e (List.mem_of_getElem? he)).live a ha
        exact ⟨t, ht⟩
      rw [vers_getEnt hk he, visible_chain hlive, Option.bind_some, he, Option.bind_some,
        tabVis_eq s hlive]
      cases visOf db.heap s e.chain with
      | none => rfl
      | some a => rfl

namespace Conc

variable {m m' m₀ : Conc} {l : Label} {s : Nat} {n : Bytes} {c : Commit}

/-- The snapshot sees what the commit left in the table, or something newer. -/
def Shows (m : Conc) (c : Commit) (s : Nat) (n : Bytes) : Prop :=
  ∃ v, m.db.tabSeen s n = some v ∧ c.ver ≤ v.verId

/-! ## The commits on record -/

/-- The ways a thread comes to be inside a commit section. -/
inductive Installs (m m' : Conc) (j : Nat) (tx : TxThread) (ver : Nat) : Nat → Prop
  | still {k : Nat} (ht : m.threads[j]? = some (.tx tx)) : Installs m m' j tx ver k
  | start (hver : ver = m.db.mv.curVer + 1) : Installs m m' j tx ver 0
  | skip {tx₀ : TxThread} {k : Nat} {it : TxTab} (ht : m.threads[j]? = some (.tx tx₀))
      (hpc : tx₀.pc = .install ver k) (hk : tx₀.tx.tabs[k]? = some it) (hd : it.dirty = false)
      (htx : tx.tx = tx₀.tx) : Installs m m' j tx ver (k + 1)
  | install {tx₀ : TxThread} {k : Nat} {it it' : TxTab} {saved : Bool}
      (ht : m.threads[j]? = some (.tx tx₀)) (hpc : tx₀.pc = .install ver k)
      (hk : tx₀.tx.tabs[k]? = some it) (hd : it.dirty = true)
      (hrun : m.db.commitInstall it ver .ok = .ok (m'.db, it', saved))
      (htx : tx.tx.tabs = tx₀.tx.tabs.set k it') : Installs m m' j tx ver (k + 1)

theorem set_cases {i j : Nat} {t t' : Thread} (h : (m.set i t').threads[j]? = some t) :
    (j = i ∧ t = t') ∨ m.threads[j]? = some t := by
  unfold set at h
  rw [List.getElem?_set] at h
  split at h
  · rename_i hij
    split at h
    · cases h
      exact Or.inl ⟨hij.symm, rfl⟩
    · cases h
  · exact Or.inr h

theorem Installs.of_set {i j : Nat} {t' : Thread} {tx : TxThread} {ver k : Nat} {m₁ : Conc}
    (hthreads : m₁.threads = m.threads) (hj : (m₁.set i t').threads[j]? = some (.tx tx))
    (hpc : tx.pc = .install ver k)
    (hnew : ∀ x : TxThread, t' = .tx x → x.pc = .install ver k → Installs m m' i x ver k) :
    Installs m m' j tx ver k := by
  rcases set_cases hj with ⟨rfl, heq⟩ | hold
  · exact hnew tx heq.symm hpc
  · exact .still (hthreads ▸ hold)

theorem Installs.of_add {j : Nat} {t' : Thread} {tx : TxThread} {ver k : Nat}
    (hj : (m.threads ++ [t'])[j]? = some (.tx tx)) (hpc : tx.pc = .install ver k)
    (hnew : ∀ x : TxThread, t' = .tx x → x.pc ≠ .install ver k) : Installs m m' j tx ver k := by
  rcases Nat.lt_or_ge j m.threads.length with hlt | hge
  · rw [List.getElem?_append_left hlt] at hj
    exact .still hj
  · rw [List.getElem?_append_right hge] at hj
    have hmem := List.mem_singleton.1 (List.mem_of_getElem? hj)
    exact absurd hpc (hnew tx hmem.symm)

theorem TxStep.installs {i : Nat} {t : TxThread} (ht : m.threads[i]? = some (.tx t))
    (hs : TxStep m i t m') {j : Nat} {tx : TxThread} {ver k : Nat}
    (hj : m'.threads[j]? = some (.tx tx)) (hpc : tx.pc = .install ver k) :
    Installs m m' j tx ver k := by
  cases hs with
  | view =>
      refine .of_set rfl hj hpc fun x hx hp => ?_
      cases hx
      cases hp
  | unparsed =>
      refine .of_set rfl hj hpc fun x hx hp => ?_
      cases hx
      cases hp
  | look => exact .still hj
  | run =>
      refine .of_set rfl hj hpc fun x hx hp => ?_
      cases hx
      rcases ran_atRest _ _ with h | h | h
      · rw [h] at hp
        cases hp
      · rw [h] at hp
        cases hp
      · rw [h] at hp
        cases hp
  | commit =>
      refine .of_set rfl hj hpc fun x hx hp => ?_
      cases hx
      cases hp
      exact .start rfl
  | conflict =>
      refine .of_set rfl hj hpc fun x hx hp => ?_
      cases hx
      rcases refused_atRest with h | h | h
      · rw [h] at hp
        cases hp
      · rw [h] at hp
        cases hp
      · rw [h] at hp
        cases hp
  | skip hpc₀ hk hd =>
      refine .of_set rfl hj hpc fun x hx hp => ?_
      cases hx
      cases hp
      exact .skip ht hpc₀ hk hd rfl
  | install hpc₀ hk hd hrun =>
      refine .of_set rfl hj hpc fun x hx hp => ?_
      cases hx
      cases hp
      exact .install ht hpc₀ hk hd hrun rfl
  | finish =>
      refine .of_set rfl hj hpc fun x hx hp => ?_
      cases hx
      cases hp
  | abort =>
      refine .of_set rfl hj hpc fun x hx hp => ?_
      cases hx
      cases hp
  | gc =>
      refine .of_set rfl hj hpc fun x hx hp => ?_
      cases hx
      cases hp
  | stat =>
      refine .of_set rfl hj hpc fun x hx hp => ?_
      cases hx
      cases hp
  | prune =>
      refine .of_set rfl hj hpc fun x hx hp => ?_
      cases hx
      cases hp
  | retry =>
      refine .of_set rfl hj hpc fun x hx hp => ?_
      cases hx
      cases hp

theorem ReqStep.installs {i : Nat} {sql : Bytes} {stmt : Statement} {pc : ReqPc}
    (hs : ReqStep m i sql stmt pc m') {j : Nat} {tx : TxThread} {ver k : Nat}
    (hj : m'.threads[j]? = some (.tx tx)) (hpc : tx.pc = .install ver k) :
    Installs m m' j tx ver k := by
  cases hs <;> exact .of_set rfl hj hpc fun x hx hp => by cases hx

theorem Turn.installs (ht : Turn m l m') {j : Nat} {tx : TxThread} {ver k : Nat}
    (hj : m'.threads[j]? = some (.tx tx)) (hpc : tx.pc = .install ver k) :
    Installs m m' j tx ver k := by
  cases ht with
  | idle => exact .still hj
  | tick ns => exact .still hj
  | spawn hjob =>
      refine .of_add hj hpc fun x hx hp => ?_
      cases hx
      cases hp
  | request hparse hsel =>
      refine .of_add hj hpc fun x hx hp => ?_
      cases hx
  | tx ht hl hstep => exact hstep.installs ht hj hpc
  | req ht hstep => exact hstep.installs hj hpc

/-- A step adds at most one commit to the history, and its thread is through with it. -/
theorem Turn.hist (ht : Turn m l m') : m'.hist = m.hist ∨
    ∃ i tx ver k, m.threads[i]? = some (.tx tx) ∧ tx.pc = .install ver k ∧
      tx.tx.tabs[k]? = none ∧ m'.hist = m.hist ++ [⟨i, ver, tx.log, written m.db tx.tx⟩] := by
  cases ht with
  | idle => exact Or.inl rfl
  | tick ns => exact Or.inl rfl
  | spawn hjob => exact Or.inl rfl
  | request hparse hsel => exact Or.inl rfl
  | tx ht hl hstep =>
      cases hstep with
      | finish hpc hk => exact Or.inr ⟨_, _, _, _, ht, hpc, hk, rfl⟩
      | _ => exact Or.inl rfl
  | req ht hstep => cases hstep <;> exact Or.inl rfl

/-- Every commit on record is on record in each of its tables, and so is what a commit
section has done so far. -/
structure Logged (m : Conc) : Prop where
  done : ∀ c ∈ m.hist, ∀ n ∈ c.tabs, ∃ v ∈ m.past n, v.verId = c.ver
  doing : ∀ (i : Nat) tx ver k, m.threads[i]? = some (.tx tx) → tx.pc = .install ver k →
    ∀ it ∈ tx.tx.tabs.take k, it.dirty = true → ∃ e, m.db.tabs[it.ent.idx]? = some e ∧
      ∃ v ∈ m.past e.name, v.verId = ver

theorem mem_record {past : List TabVer} {o : Option TabVer} {v : TabVer} (h : v ∈ past) :
    v ∈ record TabVer.verId past o := by
  have hcases : record TabVer.verId past o = past ∨
      ∃ v, o = some v ∧ record TabVer.verId past o = v :: past := record_cases past o
  rcases hcases with heq | ⟨w, -, heq⟩
  · rw [heq]
    exact h
  · rw [heq]
    exact List.mem_cons_of_mem _ h

theorem Stepped.mem_past {v : TabVer} (h : Stepped m l m') (hv : v ∈ m.past n) :
    v ∈ m'.past n := by
  rw [h.past]
  exact mem_record hv

theorem Stepped.mem_kept (h : Stepped m l m') {k ver : Nat}
    (hold : ∃ e, m.db.tabs[k]? = some e ∧ ∃ v ∈ m.past e.name, v.verId = ver) :
    ∃ e, m'.db.tabs[k]? = some e ∧ ∃ v ∈ m'.past e.name, v.verId = ver := by
  obtain ⟨e, he, v, hv, hver⟩ := hold
  obtain ⟨e', he', hname⟩ := (Db.Stable.of_names h.names).ent he
  exact ⟨e', he', v, h.mem_past (hname ▸ hv), hver⟩

/-- A table that was just published has its new version on record. -/
theorem installed_past (h : Ok m) (h' : Ok m') {i : Nat} {tx : TxThread}
    {ver k : Nat} (ht : m.threads[i]? = some (.tx tx)) (hpc : tx.pc = .install ver k)
    {it it' : TxTab} {saved : Bool} (hk : tx.tx.tabs[k]? = some it) (hd : it.dirty = true)
    (hrun : m.db.commitInstall it ver .ok = .ok (m'.db, it', saved)) :
    it' = { it with work := none } ∧ ∃ e, m'.db.tabs[it.ent.idx]? = some e ∧
      ∃ v ∈ m'.past e.name, v.verId = ver := by
  obtain ⟨A, B, hm, rfl⟩ := split_thread ht
  have hwf : m.db.Wf (tx.tx.works ++ worksOf (A ++ B)) := h.inv.wf_split hm
  have hsafe : SafeAt m.db m.owner (tx.tx.works ++ worksOf (A ++ B)) A.length tx.tx tx.pc :=
    h.inv.safe_split hm
  rw [hpc] at hsafe
  obtain ⟨a, e, tab, -, -, hr, hdb, hit, -, -⟩ := hsafe.2.install (p := none) hwf hk hd hrun
  refine ⟨hit, { e with chain := a :: e.chain }, ?_, { tab with verId := ver }, ?_, rfl⟩
  · rw [hdb]
    exact hr.ent_self
  · refine (h'.past e.name).first.subset ?_
    rw [hdb, hr.vers_installed, if_pos rfl]
    exact List.mem_cons_self

theorem Logged.step (hlog : Logged m) (h : Ok m) {m₁ : Conc} (hturn : Turn m l m₁)
    (hm' : m' = m₁.watch) (hs : Stepped m l m') (h' : Ok m') : Logged m' := by
  subst hm'
  constructor
  · intro c hc n hn
    rcases hturn.hist with heq | ⟨i, tx, ver, k, ht, hpc, hk, heq⟩
    · obtain ⟨v, hv, hver⟩ := hlog.done c (heq ▸ hc) n hn
      exact ⟨v, hs.mem_past hv, hver⟩
    · have hc' : c ∈ m.hist ++ [⟨i, ver, tx.log, written m.db tx.tx⟩] := heq ▸ hc
      rcases List.mem_append.1 hc' with hc' | hc'
      · obtain ⟨v, hv, hver⟩ := hlog.done c hc' n hn
        exact ⟨v, hs.mem_past hv, hver⟩
      · rw [List.mem_singleton.1 hc'] at hn ⊢
        -- the thread went through all its items
        obtain ⟨it, hit, hname⟩ := List.mem_filterMap.1 hn
        obtain ⟨hmem, hd⟩ := List.mem_filter.1 hit
        obtain ⟨e, he, v, hv, hver⟩ := hlog.doing i tx ver k ht hpc it
          (by rwa [List.take_of_length_le (List.getElem?_eq_none_iff.1 hk)]) hd
        rw [he] at hname
        cases hname
        exact ⟨v, hs.mem_past hv, hver⟩
  · intro j tx ver k hj hpc it hit hd
    have hcases := hturn.installs (show m₁.threads[j]? = _ from hj) hpc
    cases hcases with
    | still ht => exact hs.mem_kept (hlog.doing j tx ver k ht hpc it hit hd)
    | start hver => cases hit
    | @skip tx₀ k it₀ ht hpc₀ hk hd₀ htx =>
        obtain ⟨hlt, rfl⟩ := List.getElem?_eq_some_iff.1 hk
        rw [htx, List.take_succ_eq_append_getElem hlt] at hit
        rcases List.mem_append.1 hit with hit | hit
        · exact hs.mem_kept (hlog.doing j tx₀ ver k ht hpc₀ it hit hd)
        · rw [List.mem_singleton.1 hit, hd₀] at hd
          cases hd
    | @install tx₀ k it₀ it' saved ht hpc₀ hk hd₀ hrun htx =>
        obtain ⟨rfl, hnew⟩ := installed_past h h' ht hpc₀ hk hd₀ hrun
        obtain ⟨hlt, rfl⟩ := List.getElem?_eq_some_iff.1 hk
        have hlt' : k < (tx₀.tx.tabs.set k { tx₀.tx.tabs[k] with work := none }).length := by
          rwa [List.length_set]
        rw [htx, List.take_succ_eq_append_getElem hlt', List.take_set_of_le (Nat.le_refl k),
          List.getElem_set_self] at hit
        rcases List.mem_append.1 hit with hit | hit
        · exact hs.mem_kept (hlog.doing j tx₀ ver k ht hpc₀ it hit hd)
        · rw [List.mem_singleton.1 hit]
          exact hnew

/-- What has happened since `m₀`. -/
structure Since (m₀ m : Conc) : Prop where
  hist : ∀ c ∈ m.hist, c ∈ m₀.hist ∨ m₀.db.mv.curVer < c.ver
  grown : ∀ c ∈ m₀.hist, c ∈ m.hist
  doing : ∀ (i : Nat) tx ver k, m.threads[i]? = some (.tx tx) → tx.pc = .install ver k →
    m₀.db.mv.curVer < ver
  cur : m₀.db.mv.curVer ≤ m.db.mv.curVer

theorem Since.refl (h : Ok m) (howner : m.owner = none) : Since m m where
  hist := fun _ hc => Or.inl hc
  grown := fun _ hc => hc
  doing := fun i tx ver k ht hpc => by
    have hsafe : SafeAt m.db m.owner (worksOf m.threads) i tx.tx tx.pc := h.inv.safe i _ ht
    rw [hpc] at hsafe
    have howner' := hsafe.1
    rw [howner] at howner'
    cases howner'
  cur := Nat.le_refl _

theorem Since.step (h : Since m₀ m) {m₁ : Conc} (hturn : Turn m l m₁) (hm' : m' = m₁.watch)
    (hs : Stepped m l m') : Since m₀ m' := by
  subst hm'
  refine ⟨?_, ?_, ?_, h.cur.trans hs.cur⟩
  · intro c hc
    rcases hturn.hist with heq | ⟨i, tx, ver, k, ht, hpc, hk, heq⟩
    · exact h.hist c (heq ▸ hc)
    · have hc' : c ∈ m.hist ++ [⟨i, ver, tx.log, written m.db tx.tx⟩] := heq ▸ hc
      rcases List.mem_append.1 hc' with hc' | hc'
      · exact h.hist c hc'
      · rw [List.mem_singleton.1 hc']
        exact Or.inr (h.doing i tx ver k ht hpc)
  · intro c hc
    change c ∈ m₁.hist
    rcases hturn.hist with heq | ⟨i, tx, ver, k, -, -, -, heq⟩
    · rw [heq]
      exact h.grown c hc
    · rw [heq]
      exact List.mem_append_left _ (h.grown c hc)
  · intro j tx ver k hj hpc
    have hcases := hturn.installs (show m₁.threads[j]? = _ from hj) hpc
    cases hcases with
    | still ht => exact h.doing j tx ver k ht hpc
    | start hver =>
        rw [hver]
        exact Nat.lt_succ_of_le h.cur
    | skip ht hpc₀ hk hd htx => exact h.doing j _ ver _ ht hpc₀
    | install ht hpc₀ hk hd hrun htx => exact h.doing j _ ver _ ht hpc₀

/-! ## All or nothing -/

theorem ok_logged_of_run {files : Bytes → Option Bytes} {maxSql maxQry : Int} {ttlNs : Nat}
    {ls : List Label} (hrun : Run.exec step (init files maxSql maxQry ttlNs) ls = .ok m) :
    Ok m ∧ Logged m := by
  refine Run.kept (I := fun m => Ok m ∧ Logged m) (fun h hs => ?_)
    ⟨init_ok files maxSql maxQry ttlNs, by simp [init], by simp [init]⟩ hrun
  obtain ⟨h', hstep⟩ := h.1.step hs
  obtain ⟨m₁, hturn, hm'⟩ := hstep.turn
  exact ⟨h', h.2.step h.1 hturn hm' hstep h'⟩

theorem ok_since_of_run {ls : List Label} (h : Ok m) (howner : m.owner = none)
    (hrun : Run.exec step m ls = .ok m') : Since m m' := by
  refine (Run.kept (I := fun m₁ => Ok m₁ ∧ Since m m₁) (fun h hs => ?_)
    ⟨h, Since.refl h howner⟩ hrun).2
  obtain ⟨h', hstep⟩ := h.1.step hs
  obtain ⟨m₁, hturn, hm'⟩ := hstep.turn
  exact ⟨h', h.2.step hturn hm' hstep⟩

/-- A snapshot that still finds its versions sees a commit where it is as new as it. -/
theorem shows_iff (h : Ok m) (hlog : Logged m) (hret : m.Retains s) (hc : c ∈ m.hist)
    (hn : n ∈ c.tabs) : m.Shows c s n ↔ c.ver ≤ s := by
  unfold Shows
  rw [Db.tabSeen_eq h.inv.wf]
  constructor
  · rintro ⟨v, hv, hle⟩
    exact hle.trans (visible_mem hv).2
  · intro hle
    obtain ⟨v, hv, hver⟩ := hlog.done c hc n hn
    obtain ⟨w, hw, hnew⟩ := visible_newest (h.past n).sorted hv (hver.le.trans hle)
    refine ⟨w, ?_, hver.ge.trans hnew⟩
    rw [← hw]
    exact (retains_iff h).1 hret n

theorem not_shows_before (h : Ok m) (hnew : m.db.mv.curVer < c.ver) : ¬ m.Shows c s n := by
  rintro ⟨v, hv, hle⟩
  rw [Db.tabSeen_eq h.inv.wf] at hv
  have hmem := (h.past n).first.subset (visible_mem hv).1
  have := ((h.past n).range v hmem).2
  omega

/-- **A commit is visible in all of its tables or in none**, and a snapshot that is live and
keeps its versions gets the same answer at every later time. -/
theorem commits_seen_whole (files : Bytes → Option Bytes) (maxSql maxQry : Int) (ttlNs : Nat)
    (ls : List Label) (m : Conc)
    (hrun : Run.exec step (init files maxSql maxQry ttlNs) ls = .ok m) :
    (∀ s, m.Retains s → ∀ c ∈ m.hist,
      (∀ n ∈ c.tabs, m.Shows c s n) ∨ ∀ n ∈ c.tabs, ¬ m.Shows c s n) ∧
    (m.owner = none → ∀ ls' m', Run.exec step m ls' = .ok m' → ∀ s ∈ m.db.mv.snaps,
      m.Retains s → m'.Retains s → ∀ c ∈ m'.hist, ∀ n ∈ c.tabs,
        (m'.Shows c s n ↔ m.Shows c s n)) := by
  obtain ⟨h, hlog⟩ := ok_logged_of_run hrun
  constructor
  · intro s hret c hc
    by_cases hle : c.ver ≤ s
    · exact Or.inl fun n hn => (shows_iff h hlog hret hc hn).2 hle
    · exact Or.inr fun n hn hshows => hle ((shows_iff h hlog hret hc hn).1 hshows)
  · intro howner ls' m' hrun' s hs hret hret' c hc n hn
    obtain ⟨h', hlog'⟩ := ok_logged_of_run (Run.exec_append.2 ⟨m, hrun, hrun'⟩)
    rw [shows_iff h' hlog' hret' hc hn]
    rcases (ok_since_of_run h howner hrun').hist c hc with hold | hnew
    · exact (shows_iff h hlog hret hold hn).symm
    · have hle := (h.inv.live s hs).2
      exact iff_of_false (by omega) (not_shows_before h hnew)

/-- Two tables with one row each. -/
def twoFiles : Bytes → Option Bytes := fun n =>
  if n = str "t" ∨ n = str "u" then some (str "id(PK),v\n1,a\n") else none

/-- A transaction writes both and commits, and a client begins. -/
def bothWritten : List Label :=
  [.begin, .call 0 (.txdo (str "INSERT INTO t VALUES (2,b)")), .move 0,
    .call 0 (.txdo (str "INSERT INTO u VALUES (2,b)")), .move 0, .call 0 .commit] ++
    List.replicate 3 (.move 0) ++ [.begin]

theorem commits_seen_whole_both : ∃ m m' c, Run.exec step (init twoFiles 0 8 0) bothWritten = .ok m ∧
    Run.exec step m [.begin] = .ok m' ∧ c ∈ m.hist ∧ c.tabs = [str "t", str "u"] ∧
    ((∀ n ∈ c.tabs, m.Shows c 2 n) ∨ ∀ n ∈ c.tabs, ¬ m.Shows c 2 n) ∧
    ∀ n ∈ c.tabs, (m'.Shows c 2 n ↔ m.Shows c 2 n) := by
  obtain ⟨m, hrun, htest⟩ := Run.exists_of_reaches
    (show Run.reaches step (init twoFiles 0 8 0) bothWritten (fun m =>
      m.hist.any (fun c => c.tabs == [str "t", str "u"]) && m.owner.isNone &&
        m.db.mv.curVer == 2 && m.db.mv.snaps.contains 2) = true by decide +kernel)
  obtain ⟨htest, hsnap⟩ := Bool.and_eq_true_iff.1 htest
  obtain ⟨htest, hcur⟩ := Bool.and_eq_true_iff.1 htest
  obtain ⟨hhist, howner⟩ := Bool.and_eq_true_iff.1 htest
  obtain ⟨c, hc, htabs⟩ := List.any_eq_true.1 hhist
  have hcur : m.db.mv.curVer = 2 := eq_of_beq hcur
  have hok := (ok_logged_of_run hrun).1
  have hrun' : Run.exec step m [.begin] = .ok (m.spawn .client).watch := rfl
  have hret := retains_cur hok hcur.le
  have hret' := retains_cur (hok.run hrun') (s := 2) hcur.le
  obtain ⟨hwhole, hlater⟩ := commits_seen_whole twoFiles 0 8 0 bothWritten m hrun
  exact ⟨m, _, c, hrun, hrun', hc, eq_of_beq htabs, hwhole 2 hret c hc,
    hlater (Option.isNone_iff_eq_none.1 howner) _ _ hrun' 2 (List.contains_iff_mem.1 hsnap) hret
      hret' c hc⟩

/-- The very version the commit left is what the snapshot sees. -/
def ShowsOwn (m : Conc) (c : Commit) (s : Nat) (n : Bytes) : Prop :=
  ∃ v, m.db.tabSeen s n = some v ∧ v.verId = c.ver

/-- The client then writes one of the tables, and another one begins. -/
def oneWritten : List Label :=
  [.call 1 (.txdo (str "INSERT INTO t VALUES (3,c)")), .move 1, .call 1 .commit, .move 1, .move 1,
    .begin]

/-- A later commit hides the version of an earlier one in one table and not in the other. -/
theorem own_version_seen_in_part : ∃ m c,
    Run.exec step (init twoFiles 0 8 0) (bothWritten ++ oneWritten) = .ok m ∧ c ∈ m.hist ∧
      3 ∈ m.db.mv.snaps ∧ m.Retains 3 ∧
      ¬ ((∀ n ∈ c.tabs, m.ShowsOwn c 3 n) ∨ ∀ n ∈ c.tabs, ¬ m.ShowsOwn c 3 n) := by
  obtain ⟨m, hrun, htest⟩ := Run.exists_of_reaches
    (show Run.reaches step (init twoFiles 0 8 0) (bothWritten ++ oneWritten) (fun m =>
      m.hist.any (fun c => c.tabs == [str "t", str "u"] && c.ver == 2) &&
        m.db.mv.curVer == 3 && m.db.mv.snaps.contains 3 &&
        (m.db.tabSeen 3 (str "t")).map TabVer.verId == some 3 &&
        (m.db.tabSeen 3 (str "u")).map TabVer.verId == some 2) = true by decide +kernel)
  obtain ⟨htest, hu⟩ := Bool.and_eq_true_iff.1 htest
  obtain ⟨htest, ht⟩ := Bool.and_eq_true_iff.1 htest
  obtain ⟨htest, hsnap⟩ := Bool.and_eq_true_iff.1 htest
  obtain ⟨hhist, hcur⟩ := Bool.and_eq_true_iff.1 htest
  obtain ⟨c, hc, htest⟩ := List.any_eq_true.1 hhist
  obtain ⟨htabs, hver⟩ := Bool.and_eq_true_iff.1 htest
  have htabs : c.tabs = [str "t", str "u"] := eq_of_beq htabs
  have hver : c.ver = 2 := eq_of_beq hver
  have hcur : m.db.mv.curVer = 3 := eq_of_beq hcur
  refine ⟨m, c, hrun, hc, List.contains_iff_mem.1 hsnap,
    retains_cur (ok_logged_of_run hrun).1 hcur.le, ?_⟩
  rintro (hall | hnone)
  · obtain ⟨v, hv, hown⟩ := hall (str "t") (by simp [htabs])
    have ht := eq_of_beq ht
    rw [hv, Option.map_some, Option.some.injEq] at ht
    omega
  · have hu := eq_of_beq hu
    obtain ⟨v, hv, hown⟩ := Option.map_eq_some_iff.1 hu
    exact hnone (str "u") (by simp [htabs]) ⟨v, hv, hown.trans hver.symm⟩

end Conc

end MiniDbms
