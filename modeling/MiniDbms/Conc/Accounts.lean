import MiniDbms.Conc.Aside

/-!
# What the threads have done

Every transaction that is still in the hands of its thread is what its statements make of the
versions it started from, and no step of another thread changes that.
-/

namespace MiniDbms

open Versions

namespace Conc

variable {m m' : Conc} {t t' : TxThread} {i : Nat} {l : Label}

/-! ## The threads -/

/-- The transaction is in the hands of its thread. -/
def InHand (pc : Pc) : Prop := AtRest pc ∨ ∃ item? stmt, pc = .run item? stmt

/-- The transaction has written, or is about to execute a statement. -/
def Engaged (t : TxThread) : Prop := t.log ≠ [] ∨ ∃ item? stmt, t.pc = .run item? stmt

/-- What a thread has done so far. -/
structure Accounts (m : Conc) (t : TxThread) : Prop where
  writes : ∀ stmt ∈ t.log, stmt.isWr = true
  exec : ∀ stmt res left, t.job = .exec stmt res left → stmt.isWr = true ∧
    (t.pc = .ready → t.log = []) ∧
      ∀ item? stmt', t.pc = .run item? stmt' → stmt' = stmt ∧ t.log = []
  follows : InHand t.pc → Db.Follows m.db t.tx t.log
  told : ∀ item? stmt, t.pc = .run item? stmt → Db.Told m.db t.tx item? stmt.tableName.bytes
  behind : m.owner ≠ none → InHand t.pc → Engaged t → t.tx.snapId < m.db.mv.curVer

theorem Accounts.congr (h : Accounts m t) (hdb : m'.db = m.db) (howner : m'.owner = m.owner) :
    Accounts m' t := by
  refine ⟨h.writes, h.exec, ?_, ?_, ?_⟩
  · rw [hdb]
    exact h.follows
  · rw [hdb]
    exact h.told
  · rw [hdb, howner]
    exact h.behind

theorem InHand.rest {db : Db} {owner : Option Nat} {ws : List Nat} {tx : DbTx} {pc : Pc}
    (hpc : InHand pc) (h : SafeAt db owner ws i tx pc) : db.Rest ws tx := by
  rcases hpc with hpc | ⟨item?, stmt, rfl⟩
  · exact hpc.safe.1 h
  · exact h

theorem InHand.held (hpc : InHand t.pc) : Thread.held (.tx t) = [t.tx.snapId] := by
  rcases hpc with hpc | ⟨item?, stmt, hpc⟩
  · exact hpc.held
  · simp [Thread.held, hpc]

theorem Accounts.other {mine mine' others : List Nat} {p : Option Nat} (h : Accounts m t)
    (hrest : InHand t.pc → m.db.Rest (mine ++ others) t.tx)
    (hsec : Db.Section m.db m'.db mine mine' others p) (hsub : ∀ a ∈ t.tx.works, a ∈ others)
    (hseen : InHand t.pc → Engaged t → ∀ n, m.db.seen t.tx.snapId n = none →
      m'.db.seen t.tx.snapId n = none)
    (hbehind : m'.owner ≠ none → InHand t.pc → Engaged t → t.tx.snapId < m'.db.mv.curVer) :
    Accounts m' t where
  writes := h.writes
  exec := h.exec
  follows := fun hpc => by
    by_cases heng : Engaged t
    · exact (h.follows hpc).beside (hrest hpc).ok
        (hsec.beside (hrest hpc) hsub (hseen hpc heng))
    · have hlog : t.log = [] := by
        by_contra hne
        exact heng (Or.inl hne)
      have hf := h.follows hpc
      rw [hlog] at hf ⊢
      exact hf.of_nil
  told := fun item? stmt hpc => by
    have hin : InHand t.pc := Or.inr ⟨item?, stmt, hpc⟩
    exact (h.told item? stmt hpc).beside (hrest hin).ok
      (hsec.beside (hrest hin) hsub (hseen hin (Or.inr ⟨item?, stmt, hpc⟩)))
  behind := hbehind

theorem accounts_fresh (m m' : Conc) (job : Job) (hjob : ∀ stmt res left,
    job = .exec stmt res left → stmt.isWr = true) :
    Accounts m' ⟨job, ⟨m.db.mv.snapId, []⟩, .ready, []⟩ where
  writes := by simp
  exec := fun stmt res left heq =>
    ⟨hjob stmt res left heq, fun _ => rfl, fun item? stmt' hpc => by cases hpc⟩
  follows := fun _ => Db.follows_nil _ _
  told := fun item? stmt hpc => by cases hpc
  behind := fun _ _ heng => by
    rcases heng with hne | ⟨item?, stmt, hpc⟩
    · exact absurd rfl hne
    · cases hpc

/-! ## Steps of the other threads -/

theorem set_here {x y z : Thread} (hi : m.threads[i]? = some x)
    (h : (m.set i y).threads[i]? = some z) : z = y := by
  unfold set at h
  rw [List.getElem?_set_self (List.getElem?_eq_some_iff.1 hi).1] at h
  exact (Option.some.inj h).symm

theorem set_there {j : Nat} (hne : j ≠ i) (y : Thread) :
    (m.set i y).threads[j]? = m.threads[j]? := by
  unfold set
  exact List.getElem?_set_ne (Ne.symm hne)

theorem TxStep.threads (hs : TxStep m i t m') {j : Nat} (hne : j ≠ i) :
    m'.threads[j]? = m.threads[j]? := by
  cases hs with
  | look hpc hjob howner hrun => rfl
  | _ => exact set_there hne _

theorem InHand.live (hpc : InHand t.pc) (h : Inv m) (hi : m.threads[i]? = some (.tx t)) :
    1 ≤ t.tx.snapId ∧ t.tx.snapId ≤ m.db.mv.curVer := by
  refine h.live t.tx.snapId (h.reg.mem_iff.2 (List.mem_flatMap.2 ⟨_, List.mem_of_getElem? hi, ?_⟩))
  rw [hpc.held]
  exact List.mem_singleton.2 rfl

/-- Whoever enters the commit section gives out a new version number. -/
theorem TxStep.locks (hs : TxStep m i t m') (hnone : m.owner = none) (hsome : m'.owner ≠ none) :
    m'.db.mv.curVer = m.db.mv.curVer + 1 := by
  cases hs with
  | commit hmay howner hrun => rfl
  | view hpc hask howner hrun => exact absurd hnone hsome
  | unparsed hpc hjob => exact absurd hnone hsome
  | look hpc hjob howner hrun => exact absurd hnone hsome
  | run hpc hrun => exact absurd hnone hsome
  | conflict hmay howner hrun => exact absurd hnone hsome
  | skip hpc hk hd => exact absurd hnone hsome
  | install hpc hk hd hrun => exact absurd hnone hsome
  | finish hpc hk => exact absurd rfl hsome
  | abort hmay hrun => exact absurd hnone hsome
  | gc hpc => exact absurd hnone hsome
  | stat hpc => exact absurd hnone hsome
  | prune hpc howner hrun => exact absurd hnone hsome
  | retry hpc hjob herr => exact absurd hnone hsome

theorem TxStep.accounts_other (h : Inv m) (hi : m.threads[i]? = some (.tx t))
    (hs : TxStep m i t m') {j : Nat} {x : TxThread} (hne : j ≠ i)
    (hj : m.threads[j]? = some (.tx x)) (hacc : Accounts m x) : Accounts m' x := by
  obtain ⟨A, B, hm, rfl⟩ := split_thread hi
  have hsafe : SafeAt m.db m.owner (t.tx.works ++ worksOf (A ++ B)) j x.tx x.pc := by
    refine SafeAt.mono (h.safe j _ hj) fun a ha => ?_
    rw [hm]
    exact (worksOf_split A B (.tx t)).mem_iff.2 ha
  have hsub : ∀ a ∈ x.tx.works, a ∈ worksOf (A ++ B) := fun a ha =>
    mem_worksOf (t := .tx x) (mem_other hne (hm ▸ hj)) ha
  by_cases hin : ∃ ver k, t.pc = .install ver k
  · obtain ⟨ver, k, hpc⟩ := hin
    have hown : SafeAt m.db m.owner (t.tx.works ++ worksOf (A ++ B)) A.length t.tx t.pc :=
      h.safe_split hm
    rw [hpc] at hown
    obtain ⟨howner, hinst⟩ := hown
    have hbusy : m.owner ≠ none := by simp [howner]
    obtain ⟨⟨mine', p, hsec⟩, hseen⟩ := (hs.publishes hpc howner).seen h hm hpc
    refine hacc.other (fun hx => hx.rest hsafe) hsec hsub (fun hx heng n hn => ?_)
      fun _ hx heng => (hacc.behind hbusy hx heng).trans_le hsec.cur
    rw [hseen _ n (hinst.cur ▸ hacc.behind hbusy hx heng), hn]
  · have haside := hs.aside h hm fun ver k hpc => hin ⟨ver, k, hpc⟩
    obtain ⟨mine', p, hsec⟩ := haside.sec
    refine hacc.other (fun hx => hx.rest hsafe) hsec hsub
      (fun hx _ n hn => haside.unseen _ n (hx.live h hj).1 hn) fun hsome hx heng => ?_
    by_cases hnone : m.owner = none
    · rw [hs.locks hnone hsome]
      exact Nat.lt_succ_of_le (hx.live h hj).2
    · exact (hacc.behind hnone hx heng).trans_le hsec.cur

theorem ReqStep.accounts {sql : Bytes} {stmt : Statement} {pc : ReqPc} (h : Inv m)
    (hs : ReqStep m i sql stmt pc m') {j : Nat} {x : TxThread}
    (hj : m.threads[j]? = some (.tx x)) (hacc : Accounts m x) : Accounts m' x := by
  have haside := hs.aside h
  obtain ⟨mine', p, hsec⟩ := haside.sec
  obtain ⟨howner, -, hcur, -⟩ := hs.quiet h
  have hsafe : SafeAt m.db m.owner ([] ++ worksOf m.threads) j x.tx x.pc := h.safe j _ hj
  refine hacc.other (fun hx => hx.rest hsafe) hsec
    (fun a ha => mem_worksOf (t := .tx x) (List.mem_of_getElem? hj) ha)
    (fun hx _ n hn => haside.unseen _ n (hx.live h hj).1 hn) fun hsome hx heng => ?_
  rw [howner] at hsome
  exact (hacc.behind hsome hx heng).trans_le hcur.ge

/-! ## Steps of the thread itself -/

/-- The thread lost hold of its transaction, or is through with it. -/
theorem accounts_away (hacc : Accounts m t) (hjob : t'.job = t.job) (hlog : t'.log = t.log)
    (hpc : ¬ InHand t'.pc) : Accounts m' t' where
  writes := hlog ▸ hacc.writes
  exec := fun stmt res left heq => by
    obtain ⟨hwr, -, -⟩ := hacc.exec stmt res left (hjob ▸ heq)
    exact ⟨hwr, fun hr => absurd (Or.inl (Or.inl hr)) hpc,
      fun item? stmt' hr => absurd (Or.inr ⟨item?, stmt', hr⟩) hpc⟩
  follows := fun hin => absurd hin hpc
  told := fun item? stmt hr => absurd (Or.inr ⟨item?, stmt, hr⟩) hpc
  behind := fun _ hin => absurd hin hpc

theorem not_inHand {pc : Pc} (h : ∀ item? stmt, pc ≠ .ready ∧ pc ≠ .commit ∧ pc ≠ .abort ∧
    pc ≠ .run item? stmt) : ¬ InHand pc := by
  rintro ((hpc | hpc | hpc) | ⟨item?, stmt, hpc⟩)
  · exact (h none {}).1 hpc
  · exact (h none {}).2.1 hpc
  · exact (h none {}).2.2.1 hpc
  · exact (h item? stmt).2.2.2 hpc

theorem accounts_rest (hacc : Accounts m t) (hin : InHand t.pc) (hjob : t'.job = t.job)
    (hlog : t'.log = t.log) (htx : t'.tx = t.tx) (hpc : AtRest t'.pc)
    (hexec : ∀ stmt res left, t.job = .exec stmt res left → t'.pc ≠ .ready) : Accounts m t' where
  writes := hlog ▸ hacc.writes
  exec := fun stmt res left heq => by
    obtain ⟨hwr, -, -⟩ := hacc.exec stmt res left (hjob ▸ heq)
    refine ⟨hwr, fun hr => absurd hr (hexec stmt res left (hjob ▸ heq)), fun item? stmt' hr => ?_⟩
    rcases hpc with h | h | h
    all_goals
      rw [h] at hr
      cases hr
  follows := fun _ => by
    rw [htx, hlog]
    exact hacc.follows hin
  told := fun item? stmt hr => by
    rcases hpc with h | h | h
    all_goals
      rw [h] at hr
      cases hr
  behind := fun hbusy _ heng => by
    rw [htx]
    refine hacc.behind hbusy hin ?_
    rcases heng with hne | ⟨item?, stmt, hr⟩
    · exact Or.inl (hlog ▸ hne)
    · rcases hpc with h | h | h
      all_goals
        rw [h] at hr
        cases hr

theorem accounts_view {stmt : Statement} {item? : Option Nat} {db' : Db} {tx' : DbTx}
    {t₀ : TxThread} {others : List Nat} (hacc : Accounts m t) (hpc : t.pc = .ready)
    (hask : Asks m.db t stmt t₀) (howner : m.owner = none)
    (hrest : m.db.Rest (t.tx.works ++ others) t.tx) (hwf : m.db.Wf (t.tx.works ++ others))
    (hs : 1 ≤ t.tx.snapId) (hrun : m.db.txView t.tx stmt.tableName.bytes = .ok (item?, db', tx')) :
    Accounts { m with db := db' } { t₀ with tx := tx', pc := .run item? stmt } := by
  have hin : InHand t.pc := Or.inl (Or.inl hpc)
  obtain ⟨hfollows, htold⟩ := (hacc.follows hin).view hrest hwf hs hrun
  have hlog : t₀.log = t.log := by cases hask <;> rfl
  refine ⟨hlog ▸ hacc.writes, fun stmt₁ res left heq => ?_, fun _ => hlog ▸ hfollows,
    fun item₁ stmt₁ hr => ?_, fun hbusy => absurd howner hbusy⟩
  · cases hask with
    | client hjob => cases hjob.symm.trans heq
    | @exec res₀ left₀ hjob =>
        obtain ⟨hwr, hempty, -⟩ := hacc.exec stmt₁ res left heq
        cases hjob.symm.trans heq
        refine ⟨hwr, fun hr => (by cases hr), fun item₁ stmt' hr => ?_⟩
        cases hr
        exact ⟨rfl, hempty hpc⟩
    | batch hjob hparse => cases heq
  · cases hr
    exact htold

theorem ran_log (t : TxThread) (res : DbRes) (ok : Bool) : (ran t res ok).log = t.log := by
  unfold ran
  cases t.job <;> rfl

theorem accounts_run {item? : Option Nat} {stmt : Statement} {db' : Db} {tx' : DbTx} {res : DbRes}
    {ok : Bool} {others : List Nat} (hacc : Accounts m t) (hpc : t.pc = .run item? stmt)
    (hrest : m.db.Rest (t.tx.works ++ others) t.tx) (hwf : m.db.Wf (t.tx.works ++ others))
    (hrun : (∃ stmt' res₀ left, t.job = .exec stmt' res₀ left ∧
        m.db.execRun t.tx item? stmt res₀ = .ok (db', tx', res, ok)) ∨
      (t.job = .client ∨ ∃ sqls todo, t.job = .batch sqls todo) ∧
        m.db.txRun t.tx item? stmt = .ok (db', tx', res, ok)) :
    Accounts { m with db := db' } (ran { t with
      tx := tx'
      log := if stmt.isWr then t.log ++ [stmt] else t.log } res ok) := by
  have hin : InHand t.pc := Or.inr ⟨item?, stmt, hpc⟩
  have hcase := runCase_of_run hrest.ok hrun
  obtain ⟨hsec, hquiet, hrest', hsnap⟩ := hcase.section (p := none) hrest hwf
  have hfollows : Db.Follows db' tx' (if stmt.isWr then t.log ++ [stmt] else t.log) := by
    cases hwr : stmt.isWr with
    | false =>
        rw [if_neg Bool.false_ne_true]
        rcases hrun with ⟨stmt', res₀, left, hjob, -⟩ | ⟨-, hrun⟩
        · obtain ⟨hwr', -, hsame⟩ := hacc.exec stmt' res₀ left hjob
          rw [(hsame item? stmt hpc).1, hwr'] at hwr
          cases hwr
        · obtain ⟨rfl, rfl⟩ := Db.txRun_read hwr hrun
          exact hacc.follows hin
    | true =>
        rw [if_pos rfl]
        rcases hrun with ⟨stmt', res₀, left, hjob, hrun⟩ | ⟨-, hrun⟩
        · exact (hacc.follows hin).write (hacc.told item? stmt hpc) hrest hwf hrest' hsec.wf hquiet
            (Or.inr ((hacc.exec stmt' res₀ left hjob).2.2 item? stmt hpc).2) hwr
            (Db.execRun_write hrest.ok hwr hrun)
        · obtain ⟨res₀, hcount, hwrite⟩ := Db.txRun_write hrest.ok hwr hrun
          exact (hacc.follows hin).write (hacc.told item? stmt hpc) hrest hwf hrest' hsec.wf hquiet
            (Or.inl hcount) hwr hwrite
  refine ⟨fun s hs => ?_, fun stmt₁ res₁ left₁ heq => ?_, fun _ => ?_, fun item₁ stmt₁ hr => ?_,
    fun hbusy _ _ => ?_⟩
  · rw [ran_log] at hs
    dsimp only at hs
    split at hs
    · rename_i hwr
      rcases List.mem_append.1 hs with hs | hs
      · exact hacc.writes s hs
      · rw [List.mem_singleton.1 hs]
        exact hwr
    · exact hacc.writes s hs
  · unfold ran at heq ⊢
    cases hjob : t.job with
    | client =>
        rw [hjob] at heq
        cases heq
    | batch sqls todo =>
        rw [hjob] at heq
        cases heq
    | exec stmt₀ res₀ left₀ =>
        rw [hjob] at heq
        cases heq
        refine ⟨(hacc.exec _ _ _ hjob).1, fun hr => ?_, fun item₁ stmt' hr => ?_⟩
        all_goals
          dsimp only at hr
          split at hr
        all_goals cases hr
  · rw [ran_tx, ran_log]
    exact hfollows
  · have hrest₁ : AtRest (ran { t with
        tx := tx'
        log := if stmt.isWr then t.log ++ [stmt] else t.log } res ok).pc := ran_atRest res ok
    rcases hrest₁ with h | h | h
    all_goals
      rw [h] at hr
      cases hr
  · rw [ran_tx]
    change tx'.snapId < db'.mv.curVer
    rw [hsnap, hcase.mv]
    exact hacc.behind hbusy hin (Or.inr ⟨item?, stmt, hpc⟩)

theorem TxStep.accounts_own (h : Inv m) (hi : m.threads[i]? = some (.tx t))
    (hs : TxStep m i t m') (hacc : Accounts m t) (hi' : m'.threads[i]? = some (.tx t')) :
    Accounts m' t' := by
  obtain ⟨A, B, hm, rfl⟩ := split_thread hi
  have hwf : m.db.Wf (t.tx.works ++ worksOf (A ++ B)) := h.wf_split hm
  have hsafe : SafeAt m.db m.owner (t.tx.works ++ worksOf (A ++ B)) A.length t.tx t.pc :=
    h.safe_split hm
  cases hs with
  | view hpc hask howner hrun =>
      cases set_here hi hi'
      have hin : InHand t.pc := Or.inl (Or.inl hpc)
      exact (accounts_view hacc hpc hask howner (hin.rest hsafe) hwf (hin.live h hi).1 hrun).congr
        rfl rfl
  | unparsed hpc hjob =>
      cases set_here hi hi'
      have hrest : Accounts m { t with pc := .abort } := by
        refine accounts_rest hacc (Or.inl (Or.inl hpc)) rfl rfl rfl (Or.inr (Or.inr rfl))
          fun stmt res left heq => ?_
        cases hjob.symm.trans heq
      exact hrest.congr rfl rfl
  | @look sql db' res ok hpc hjob howner hrun =>
      have heq : t' = t := by
        have hsame : m.threads[A.length]? = some (.tx t') := hi'
        rw [hi] at hsame
        cases hsame
        rfl
      rw [heq]
      have hwf₀ : m.db.Wf ([] ++ (t.tx.works ++ worksOf (A ++ B))) := hwf
      have haside := Db.Aside.needs hwf₀ (Db.doRead_needs hrun)
      obtain ⟨mine', p, hsec⟩ := haside.sec
      have hsafe₀ : SafeAt m.db m.owner ([] ++ (t.tx.works ++ worksOf (A ++ B))) A.length t.tx
        t.pc := hsafe
      exact hacc.other (fun hin => hin.rest hsafe₀) hsec (fun a ha => List.mem_append_left _ ha)
        (fun hin _ n hn => haside.unseen _ n (hin.live h hi).1 hn) fun hbusy => absurd howner hbusy
  | run hpc hrun =>
      cases set_here hi hi'
      rw [hpc] at hsafe
      exact (accounts_run hacc hpc hsafe hwf hrun).congr rfl rfl
  | commit hmay howner hrun =>
      cases set_here hi hi'
      exact accounts_away hacc rfl rfl (not_inHand (by simp))
  | conflict hmay howner hrun =>
      cases set_here hi hi'
      have hjob : (refused t).job = t.job ∧ (refused t).log = t.log := by
        unfold refused
        cases t.job <;> exact ⟨rfl, rfl⟩
      have hrest : Accounts m (refused t) := by
        refine accounts_rest hacc (Or.inl hmay.atRest) hjob.1 hjob.2 refused_tx refused_atRest
          fun stmt res left heq => ?_
        unfold refused
        rw [heq]
        exact Pc.noConfusion
      exact hrest.congr rfl rfl
  | skip hpc hk hd =>
      cases set_here hi hi'
      exact accounts_away hacc rfl rfl (not_inHand (by simp))
  | install hpc hk hd hrun =>
      cases set_here hi hi'
      exact accounts_away hacc rfl rfl (not_inHand (by simp))
  | finish hpc hk =>
      cases set_here hi hi'
      exact accounts_away hacc rfl rfl (not_inHand (by simp))
  | abort hmay hrun =>
      cases set_here hi hi'
      exact accounts_away hacc rfl rfl (not_inHand (by simp))
  | gc hpc =>
      cases set_here hi hi'
      exact accounts_away hacc rfl rfl (not_inHand (by simp))
  | stat hpc =>
      cases set_here hi hi'
      exact accounts_away hacc rfl rfl (not_inHand (by simp))
  | prune hpc howner hrun =>
      cases set_here hi hi'
      exact accounts_away hacc rfl rfl (not_inHand (by simp))
  | retry hpc hjob herr =>
      cases set_here hi hi'
      refine accounts_fresh m _ _ fun stmt res left heq => ?_
      cases heq
      exact (hacc.exec _ _ _ hjob).1

/-- **One step.** -/
theorem Turn.accounts (h : Inv m)
    (hacc : ∀ (j : Nat) t, m.threads[j]? = some (.tx t) → Accounts m t)
    (hturn : Turn m l m') {j : Nat} (hj : m'.threads[j]? = some (.tx t)) : Accounts m' t := by
  cases hturn with
  | idle => exact hacc j t hj
  | tick ns => exact (hacc j t hj).congr rfl rfl
  | @spawn _ job hjob =>
      rcases Nat.lt_or_ge j m.threads.length with hlt | hge
      · have hj : (m.threads ++ [m.fresh job])[j]? = some (.tx t) := hj
        rw [List.getElem?_append_left hlt] at hj
        have hold := hacc j t hj
        exact ⟨hold.writes, hold.exec, fun hin => ⟨(hold.follows hin).worked,
          (hold.follows hin).unworked, (hold.follows hin).unseen⟩,
          fun item? stmt hr => ⟨(hold.told item? stmt hr).none, (hold.told item? stmt hr).some⟩,
          hold.behind⟩
      · have hj : (m.threads ++ [m.fresh job])[j]? = some (.tx t) := hj
        rw [List.getElem?_append_right hge] at hj
        have hmem := List.mem_singleton.1 (List.mem_of_getElem? hj)
        cases hmem
        refine accounts_fresh m _ _ fun stmt res left heq => ?_
        rcases hjob with rfl | ⟨stmt₀, hwr, rfl⟩ | ⟨sqls, rfl⟩
        · cases heq
        · cases heq
          exact hwr
        · cases heq
  | @request text stmt hparse hsel =>
      rcases Nat.lt_or_ge j m.threads.length with hlt | hge
      · dsimp only at hj
        rw [List.getElem?_append_left hlt] at hj
        exact (hacc j t hj).congr rfl rfl
      · dsimp only at hj
        rw [List.getElem?_append_right hge] at hj
        have hmem := List.mem_singleton.1 (List.mem_of_getElem? hj)
        cases hmem
  | @tx _ i t₀ _ hi hl hstep =>
      by_cases hne : j = i
      · subst hne
        exact hstep.accounts_own h hi (hacc j t₀ hi) hj
      · have hsame : m'.threads[j]? = m.threads[j]? := hstep.threads hne
        rw [hsame] at hj
        exact hstep.accounts_other h hi hne hj (hacc j t hj)
  | @req i sql stmt pc _ hi hstep =>
      obtain ⟨pc', hset⟩ := hstep.threads
      by_cases hne : j = i
      · subst hne
        rw [hset, List.getElem?_set_self (List.getElem?_eq_some_iff.1 hi).1] at hj
        cases hj
      · rw [hset, List.getElem?_set_ne (Ne.symm hne)] at hj
        exact hstep.accounts h hj (hacc j t hj)

end Conc

end MiniDbms
