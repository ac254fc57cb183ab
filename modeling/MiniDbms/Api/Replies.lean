import MiniDbms.Api.Document
import MiniDbms.Api.Response
import MiniDbms.Lib.JsonPrint
import MiniDbms.Sql.Faithful

/-!
# What the responses say

A reply is what a handler has to say.  The response function of each kind of reply writes
one JSON document, and the document says the reply: whether it went well, what was found,
and the number of the request.
-/

namespace MiniDbms

open Json

/-! ## Leaves -/

/-- The texts that `add_obj` writes. -/
def cells (obj : DbObj) : DbObj := obj.map fun c => (cstr c.1, cstr c.2)

theorem cells_nulFree (obj : DbObj) : NulFree (cells obj) := by
  intro c hc
  obtain ⟨c', -, rfl⟩ := List.mem_map.1 hc
  exact ⟨fun b hb => ne_zero_of_mem_cstr hb, fun b hb => ne_zero_of_mem_cstr hb⟩

theorem addObj_cells (obj : DbObj) : addObj (cells obj) = addObj obj := by
  unfold addObj cells
  rw [List.map_map]
  simp only [Function.comp_def, bufJsn, Sql.cstr_cstr]

theorem addRows_cells (rows : List DbObj) : addRows (rows.map cells) = addRows rows := by
  unfold addRows
  rw [List.map_map]
  simp only [Function.comp_def, addObj_cells]

namespace Api

def jsnDoc (t : Bytes) : Doc := .leaf (bufJsn t) (.string (cstr t))

def intDoc (n : Int) : Doc := .leaf (printL n) (.number n)

def boolDoc (b : Bool) : Doc := .leaf (trueFalse b) (.bool b)

def rowsDoc (rows : List DbObj) : Doc :=
  .leaf (addRows rows) (.array ((rows.map cells).map objData))

/-- The document of a result, as `sql_data` writes it. -/
def resDoc (res : DbRes) : Doc :=
  .object ([("rows", rowsDoc res.rows), ("count", intDoc res.count)] ++
    if 0 < res.lastId then [("last_id", intDoc res.lastId)] else [])

/-- The first row, or an object without members. -/
def oneDoc (res : DbRes) : Doc :=
  match res.rows with
  | [] => .object []
  | obj :: _ => .leaf (addObj obj) (objData (cells obj))

def traceDoc (job : QJob) : Doc :=
  .object [("name", jsnDoc job.name), ("thr_id", intDoc job.tid), ("start_ms", intDoc job.startMs),
    ("lat_ms", intDoc job.latMs), ("ok", boolDoc (job.ok && codeOf job.res == []))]

def pageDoc (jobs : PageJobs) : Doc :=
  .object [("restaurants", rowsDoc jobs.restaurants.res.rows), ("order", oneDoc jobs.order.res),
    ("coupons", rowsDoc jobs.coupons.res.rows), ("cart", oneDoc jobs.cart.res)]

def pageTraceDoc (jobs : PageJobs) : Doc := .array (jobs.all.map traceDoc)

def runDoc (jobs : PageJobs) (totalMs : Int) : Doc :=
  .object [("trace", pageTraceDoc jobs), ("sum_lat_ms", intDoc (pageSumLat jobs)),
    ("total_ms", intDoc totalMs)]

def poolDoc (st : PoolSt) : Doc :=
  .object [("size", intDoc st.size), ("active", intDoc st.active), ("queued", intDoc st.queued),
    ("done", intDoc st.done)]

/-- A number that `%ld`, `%d`, `%lu` or `%llu` prints as it is. -/
def Printable (n : Int) : Prop := n.natAbs < 10 ^ 20

theorem jsnDoc_ok (t : Bytes) : (jsnDoc t).Ok := by
  refine ⟨.string (strPieces (cstr t)), ?_, ?_⟩
  · rw [Value.text, quoted_strPieces fun b hb => ne_zero_of_mem_cstr hb]
    unfold bufJsn
    rw [Sql.cstr_cstr]
  · rw [Value.data, strPieces, decode_jsnPieces]

theorem intDoc_ok {n : Int} (h : Printable n) : (intDoc n).Ok := by
  obtain ⟨ds, hprint, hne, -, hds, hval⟩ := printDigits_spec 19 n.natAbs [] h
  rw [List.append_nil] at hprint
  have hlead : ds.head? = some 48 → ds = [48] := by
    intro hhead
    by_cases hz : n.natAbs = 0
    · rw [hz] at hprint
      rw [← hprint]
      decide
    · rw [← hprint] at hhead
      exact absurd hhead (printDigits_head 20 n.natAbs [] (Nat.pos_of_ne_zero hz) h)
  obtain ⟨m, hm⟩ : ∃ m : ℕ, n.natAbs = m := ⟨_, rfl⟩
  have hnat : (Digits.val ⟨ds, hne, List.all_eq_true.2 hds⟩ : ℕ) = m := by
    have := hval 0
    rw [Nat.zero_mul, Nat.zero_add, hm] at this
    exact this
  refine ⟨.number ⟨decide (n < 0), ⟨ds, hne, List.all_eq_true.2 hds⟩, hlead, none, none⟩, ?_, ?_⟩
  · unfold printL
    by_cases hneg : n < 0
    · rw [if_pos hneg, hprint]
      simp [Value.text, Number.text, hneg]
    · rw [if_neg hneg, hprint]
      simp [Value.text, Number.text, hneg]
  · by_cases hneg : n < 0
    · have hint : (m : ℤ) = -n := by omega
      have hrat : (m : ℚ) = -n := by exact_mod_cast hint
      simp [Value.data, Number.value, Number.exponent, hnat, hrat, hneg]
    · have hint : (m : ℤ) = n := by omega
      have hrat : (m : ℚ) = n := by exact_mod_cast hint
      simp [Value.data, Number.value, Number.exponent, hnat, hrat, hneg]

theorem boolDoc_ok (b : Bool) : (boolDoc b).Ok := by
  cases b with
  | true => exact ⟨.literal .true, rfl, rfl⟩
  | false => exact ⟨.literal .false, rfl, rfl⟩

theorem rowsDoc_ok (rows : List DbObj) : (rowsDoc rows).Ok := by
  refine ⟨rowsValue (rows.map cells), ?_, rowsValue_data _⟩
  rw [rowsValue_text, addRows_cells]
  intro obj hobj
  obtain ⟨obj', -, rfl⟩ := List.mem_map.1 hobj
  exact cells_nulFree obj'

/-! ## Replies -/

/-- What a handler has to say. -/
inductive Reply
  | error (http : Nat) (code msg : Bytes) (failed : 400 ≤ http)
  | sql (res : DbRes) (meter : Meter) (cacheStatus cacheReason : Bytes)
  | batch (resv : List DbRes) (latMs : Int)
  | txFailed (resv : List DbRes) (latMs : Int)
  | health
  | page (mode : PageMode) (delayMs workers : Int) (jobs : PageJobs) (totalMs : Int)
  | compare (delayMs workers : Int) (seq : PageJobs) (seqMs : Int) (par : PageJobs) (parMs : Int)
      (quotient : Json.Number)
  | metrics (ap dp : PoolSt) (mst : MvStat) (st : ApiStats) (timing : Timing)

namespace Reply

/-- The response function of each reply. -/
def write (reqId : Bytes) : Reply → Option HttpRes
  | .error http code msg _ => errRes http code msg reqId
  | .sql res meter status reason => sqlOkData reqId (sqlData res) meter status reason
  | .batch resv latMs => batchOk reqId resv latMs
  | .txFailed resv latMs => txRes reqId resv latMs false
  | .health => doHealth reqId
  | .page mode delayMs workers jobs totalMs => pageSingleRes reqId mode delayMs workers jobs totalMs
  | .compare delayMs workers seq seqMs par parMs quotient =>
    pageCompareRes reqId delayMs workers seq seqMs par parMs quotient
  | .metrics ap dp mst st timing => doMst reqId ap dp mst st timing

def code : Reply → Nat
  | .error http _ _ _ => statusOf http
  | .txFailed _ _ => 400
  | _ => 200

/-- The members behind `ok`. -/
def fields (reqId : Bytes) : Reply → List (String × Doc)
  | .error _ code msg _ =>
    [("err", .object [("code", jsnDoc code), ("msg", jsnDoc msg)]),
      ("meta", .object [("req_id", jsnDoc reqId)])]
  | .sql res meter status reason =>
    [("data", resDoc res),
      ("meta", .object [("req_id", jsnDoc reqId), ("thr_id", intDoc meter.tid),
        ("lat_ms", intDoc meter.latMs), ("lat_us", intDoc meter.latUs),
        ("cache", .object [("status", jsnDoc status), ("reason", jsnDoc reason)])])]
  | .batch resv latMs =>
    [("data", .object [("results", .array (resv.map fun res =>
        .object [("rows", rowsDoc res.rows), ("count", intDoc res.count)]))]),
      ("meta", .object [("req_id", jsnDoc reqId), ("lat_ms", intDoc latMs)])]
  | .txFailed resv latMs =>
    [("err", .object [("code", jsnDoc (str "TX_ABORT")),
        ("msg", jsnDoc (str "query failed, rollback completed"))]),
      ("data", .object [("done", intDoc (txCounts resv).1), ("fail_at", intDoc (txCounts resv).2)]),
      ("meta", .object [("req_id", jsnDoc reqId), ("lat_ms", intDoc latMs)])]
  | .health =>
    [("data", .object [("status", jsnDoc (str "up"))]),
      ("meta", .object [("req_id", jsnDoc reqId)])]
  | .page mode delayMs workers jobs totalMs =>
    [("data", pageDoc jobs), ("trace", pageTraceDoc jobs),
      ("meta", .object [("req_id", jsnDoc reqId),
        ("mode", jsnDoc (if mode = .sequential then str "sequential" else str "parallel")),
        ("delay_ms", intDoc delayMs), ("workers", intDoc workers),
        ("sum_lat_ms", intDoc (pageSumLat jobs)), ("total_ms", intDoc totalMs)])]
  | .compare delayMs workers seq seqMs par parMs quotient =>
    [("data", .object [("sequential", runDoc seq seqMs), ("parallel", runDoc par parMs),
        ("speedup", if 0 < parMs then .leaf quotient.text (.number quotient.value)
          else .leaf (str "0.0") (.number 0))]),
      ("meta", .object [("req_id", jsnDoc reqId), ("mode", jsnDoc (str "compare")),
        ("delay_ms", intDoc delayMs), ("workers", intDoc workers)])]
  | .metrics ap dp mst st timing =>
    [("data", .object [("api_pool", poolDoc ap), ("db_pool", poolDoc dp),
        ("mvcc", .object [("tx_live", intDoc mst.txLive), ("snap_min", intDoc mst.snapMin),
          ("ver_now", intDoc mst.verNow), ("gc_wait", intDoc mst.gcWait)]),
        ("http", .object [("uptime_ms", intDoc timing.uptimeMs),
          ("total_requests", intDoc st.totalRequests),
          ("inflight_requests", intDoc st.inflightRequests),
          ("ok_responses", intDoc st.okResponses), ("error_responses", intDoc st.errorResponses),
          ("status_503", intDoc st.status503), ("keep_alive_reuse", intDoc st.keepAliveReuse)]),
        ("cache", .object [("hits", intDoc st.cacheHits), ("misses", intDoc st.cacheMisses)]),
        ("timing_ns", .object [("parse", intDoc timing.parseNs),
          ("lock_wait", intDoc timing.lockWaitNs), ("engine", intDoc timing.engineNs),
          ("json", intDoc timing.jsonNs), ("send", intDoc timing.sendNs)])]),
      ("meta", .object [("req_id", jsnDoc reqId)])]

/-- Whether it went well, and what follows. -/
def doc (reqId : Bytes) (r : Reply) : Doc :=
  .object (("ok", boolDoc (r.code == 200)) :: r.fields reqId)

end Reply

/-! ## Writing -/

/-- The writer ends in a response, whose body is what was there and a text. -/
def Sends (write : Buf → Option HttpRes) (code : Nat) (t : Bytes) : Prop :=
  ∀ buf : Buf, buf.Ok → write buf = some ⟨code, buf.text ++ t, jsonType⟩

theorem sends_resSet (code : Nat) : Sends (fun buf => some (resSet code buf)) code [] := by
  intro buf _
  rw [List.append_nil]
  rfl

theorem Sends.after {f : Buf → Option Buf} {g : Buf → Option HttpRes} {s t : Bytes} {code : Nat}
    (hf : Buf.Writes f s) (hg : Sends g code t) :
    Sends (fun buf => (f buf).bind g) code (s ++ t) := by
  intro buf h
  obtain ⟨buf', heq, hok, htext⟩ := hf buf h
  dsimp only
  rw [heq, Option.bind_some, hg buf' hok, htext, List.append_assoc]

theorem Sends.fresh {f : Buf → Option HttpRes} {code : Nat} {t : Bytes} (h : Sends f code t) :
    f {} = some ⟨code, t, jsonType⟩ := h {} (Nat.le_refl _)

open Buf (Writes writes_bufPut writes_bufJsn writes_bufFmt writes_bufChr writes_addRows)

theorem closeBrace : ([125] : Bytes) = str "\x7d" := by decide

theorem openBracket : ([91] : Bytes) = str "[" := by decide

theorem closeBracket : ([93] : Bytes) = str "]" := by decide

theorem writes_of_eq {f : Buf → Option Buf} {s t : Bytes} (h : Writes f s) (heq : s = t) :
    Writes f t := heq ▸ h

theorem docsText_eq {α : Type} (f : α → Doc) (items : List α) :
    docsText (items.map f) = commaSep (items.map fun a => (f a).text) := by
  cases items with
  | nil => rfl
  | cons a items =>
      rw [docsText_map, List.map_cons, Buf.commaSep_cons, List.flatMap_map]
      rfl

theorem writes_addOne (res : DbRes) : Writes (addOne res) (oneDoc res).text := by
  unfold addOne oneDoc
  cases res.rows with
  | nil => exact writes_bufPut _
  | cons obj rows => exact Buf.writes_addObj obj

theorem writes_addTrace (job : QJob) : Writes (addTrace job) (traceDoc job).text := by
  refine writes_of_eq ((writes_bufPut _).bind ((writes_bufJsn _).bind (writes_bufFmt _))) ?_
  simp only [traceDoc, jsnDoc, intDoc, boolDoc, Doc.text, fieldsText, moreFields, keyText,
    List.append_assoc, List.nil_append, str_append_append, String.reduceAppend]

theorem writes_addPageTrace (jobs : PageJobs) :
    Writes (addPageTrace jobs) (pageTraceDoc jobs).text := by
  refine writes_of_eq ((writes_bufChr 91).bind
    ((Buf.writes_commaLoop writes_addTrace jobs.all).bind (writes_bufChr 93))) ?_
  simp only [pageTraceDoc, Doc.text, docsText_eq, openBracket, closeBracket]

theorem writes_addPageData (jobs : PageJobs) : Writes (addPageData jobs) (pageDoc jobs).text := by
  refine writes_of_eq ((writes_bufPut _).bind ((writes_addRows _).bind ((writes_bufPut _).bind
    ((writes_addOne _).bind ((writes_bufPut _).bind ((writes_addRows _).bind
      ((writes_bufPut _).bind ((writes_addOne _).bind (writes_bufChr 125))))))))) ?_
  simp only [pageDoc, rowsDoc, Doc.text, fieldsText, moreFields, keyText, closeBrace,
    List.append_assoc, List.nil_append, str_append_append, String.reduceAppend]

theorem resDoc_text (res : DbRes) : (resDoc res).text = sqlData res := by
  unfold resDoc sqlData
  have hopen : ∀ s : Bytes, 123 :: s = str "\x7b" ++ s := fun _ => rfl
  by_cases hlast : 0 < res.lastId
  · rw [if_pos hlast, if_pos hlast, hopen, closeBrace]
    simp only [rowsDoc, intDoc, Doc.text, fieldsText, moreFields, keyText, List.cons_append,
      List.append_assoc, List.nil_append, str_append, str_append_append, String.reduceAppend]
  · rw [if_neg hlast, if_neg hlast, hopen, closeBrace]
    simp only [rowsDoc, intDoc, Doc.text, fieldsText, moreFields, keyText, List.append_nil,
      List.append_assoc, str_append_append, String.reduceAppend]

theorem statusOf_failed {http : Nat} (h : 400 ≤ http) : statusOf http ≠ 200 := by
  unfold statusOf
  split
  · omega
  · decide

namespace Reply

variable {reqId : Bytes}

theorem okText {r : Reply} (h : r.code = 200) : (boolDoc (r.code == 200)).text = str "true" := by
  rw [h]
  rfl

theorem failText {r : Reply} (h : r.code ≠ 200) : (boolDoc (r.code == 200)).text = str "false" := by
  rw [beq_false_of_ne h]
  rfl

theorem error_eq (http : Nat) (code msg : Bytes) (failed : 400 ≤ http) :
    errRes http code msg reqId =
      some ⟨statusOf http, ((Reply.error http code msg failed).doc reqId).text, jsonType⟩ := by
  have h : errRes http code msg reqId = _ := Sends.fresh (.after (writes_bufPut _)
    (.after (writes_bufJsn _) (.after (writes_bufPut _) (.after (writes_bufJsn _)
      (.after (writes_bufPut _) (.after (writes_bufJsn _) (.after (writes_bufPut _)
        (sends_resSet _))))))))
  have hfail := failText (r := .error http code msg failed) (statusOf_failed failed)
  rw [h]
  simp only [doc, fields, jsnDoc, Doc.text, fieldsText, moreFields, keyText, hfail,
    List.append_assoc, List.append_nil, str_append, str_append_append, String.reduceAppend]

theorem sql_eq (res : DbRes) (meter : Meter) (status reason : Bytes) :
    sqlOkData reqId (sqlData res) meter status reason =
      some ⟨200, ((Reply.sql res meter status reason).doc reqId).text, jsonType⟩ := by
  have hdata : Writes (fun buf => if 0 < (sqlData res).length then buf.bufPut (sqlData res)
      else some buf) (sqlData res) := by
    have hpos : 0 < (sqlData res).length := by
      unfold sqlData
      simp
    simp only [if_pos hpos]
    exact writes_bufPut _
  have h : sqlOkData reqId (sqlData res) meter status reason = _ :=
    Sends.fresh (.after (writes_bufPut _) (.after hdata (.after (writes_bufPut _)
      (.after (writes_bufJsn _) (.after (writes_bufFmt _) (.after (writes_bufJsn _)
        (.after (writes_bufPut _) (.after (writes_bufJsn _) (.after (writes_bufPut _)
          (sends_resSet _))))))))))
  have hok := okText (r := .sql res meter status reason) rfl
  rw [h]
  simp only [doc, fields, jsnDoc, intDoc, Doc.text, fieldsText, moreFields, keyText, hok,
    resDoc_text, List.append_assoc, List.append_nil, str_append, str_append_append,
    String.reduceAppend]

theorem batch_eq (resv : List DbRes) (latMs : Int) :
    batchOk reqId resv latMs =
      some ⟨200, ((Reply.batch resv latMs).doc reqId).text, jsonType⟩ := by
  have hres : ∀ res : DbRes, Writes
      (fun buf => (buf.bufPut (str "\x7b\"rows\":")).bind fun buf =>
        (buf.addRows res.rows).bind fun buf =>
          buf.bufFmt (str ",\"count\":" ++ printL res.count ++ str "\x7d"))
      (Doc.object [("rows", rowsDoc res.rows), ("count", intDoc res.count)]).text := by
    intro res
    refine writes_of_eq ((writes_bufPut _).bind ((writes_addRows _).bind (writes_bufFmt _))) ?_
    simp only [rowsDoc, intDoc, Doc.text, fieldsText, moreFields, keyText, List.append_assoc,
      List.nil_append, str_append_append, String.reduceAppend]
  have h : batchOk reqId resv latMs = _ :=
    Sends.fresh (.after (writes_bufPut _) (.after (Buf.writes_commaLoop hres resv)
      (.after (writes_bufPut _) (.after (writes_bufPut _) (.after (writes_bufJsn _)
        (.after (writes_bufFmt _) (sends_resSet _)))))))
  have hok := okText (r := .batch resv latMs) rfl
  rw [h, ← docsText_eq]
  simp only [doc, fields, jsnDoc, intDoc, Doc.text, fieldsText, moreFields, keyText, hok,
    List.append_assoc, List.append_nil, str_append, str_append_append, String.reduceAppend]

theorem txFailed_eq (resv : List DbRes) (latMs : Int) :
    txRes reqId resv latMs false =
      some ⟨400, ((Reply.txFailed resv latMs).doc reqId).text, jsonType⟩ := by
  have h : txRes reqId resv latMs false = _ :=
    Sends.fresh (.after (writes_bufPut _) (.after (writes_bufFmt _) (.after (writes_bufPut _)
      (.after (writes_bufJsn _) (.after (writes_bufFmt _) (sends_resSet _))))))
  have hfail := failText (r := .txFailed resv latMs) (show (400 : Nat) ≠ 200 by decide)
  have habort : bufJsn (str "TX_ABORT") = str "\"TX_ABORT\"" := by decide
  have hrolled : bufJsn (str "query failed, rollback completed") =
      str "\"query failed, rollback completed\"" := by decide +kernel
  rw [h]
  simp only [doc, fields, jsnDoc, intDoc, Doc.text, fieldsText, moreFields, keyText, hfail, habort,
    hrolled, List.append_assoc, List.append_nil, str_append, str_append_append,
    String.reduceAppend]

theorem health_eq : Api.doHealth reqId = some ⟨200, (Reply.health.doc reqId).text, jsonType⟩ := by
  have h : Api.doHealth reqId = _ :=
    Sends.fresh (.after (writes_bufPut _) (.after (writes_bufJsn _) (.after (writes_bufPut _)
      (sends_resSet _))))
  have hok := okText (r := .health) rfl
  have hup : bufJsn (str "up") = str "\"up\"" := by decide
  rw [h]
  simp only [doc, fields, jsnDoc, Doc.text, fieldsText, moreFields, keyText, hok, hup,
    List.append_assoc, List.append_nil, str_append, str_append_append, String.reduceAppend]

theorem page_eq (mode : PageMode) (delayMs workers : Int) (jobs : PageJobs) (totalMs : Int) :
    pageSingleRes reqId mode delayMs workers jobs totalMs =
      some ⟨200, ((Reply.page mode delayMs workers jobs totalMs).doc reqId).text, jsonType⟩ := by
  have h : pageSingleRes reqId mode delayMs workers jobs totalMs = _ :=
    Sends.fresh (.after (writes_bufPut _) (.after (writes_addPageData _) (.after (writes_bufPut _)
      (.after (writes_addPageTrace _) (.after (writes_bufPut _) (.after (writes_bufJsn _)
        (.after (writes_bufPut _) (.after (writes_bufJsn _) (.after (writes_bufFmt _)
          (sends_resSet _))))))))))
  have hok := okText (r := .page mode delayMs workers jobs totalMs) rfl
  rw [h]
  simp only [doc, fields, jsnDoc, intDoc, Doc.text, fieldsText, moreFields, keyText, hok,
    List.append_assoc, List.append_nil, str_append, str_append_append, String.reduceAppend]

theorem compare_eq (delayMs workers : Int) (seq : PageJobs) (seqMs : Int) (par : PageJobs)
    (parMs : Int) (quotient : Json.Number) :
    pageCompareRes reqId delayMs workers seq seqMs par parMs quotient =
      some ⟨200, ((Reply.compare delayMs workers seq seqMs par parMs quotient).doc reqId).text,
        jsonType⟩ := by
  have htimes : ∀ (jobs : PageJobs) (totalMs : Int), Writes (addRunTimes jobs totalMs)
      (str ",\"sum_lat_ms\":" ++ printL (pageSumLat jobs) ++ str ",\"total_ms\":" ++
        printL totalMs ++ str "\x7d,") := fun jobs totalMs => writes_bufFmt _
  have h : pageCompareRes reqId delayMs workers seq seqMs par parMs quotient = _ :=
    Sends.fresh (.after (writes_bufPut _) (.after (writes_addPageTrace _) (.after (htimes _ _)
      (.after (writes_bufPut _) (.after (writes_addPageTrace _) (.after (htimes _ _)
        (.after (writes_bufFmt _) (.after (writes_bufJsn _) (.after (writes_bufFmt _)
          (sends_resSet _))))))))))
  have hok := okText (r := .compare delayMs workers seq seqMs par parMs quotient) rfl
  have hname : bufJsn (str "compare") = str "\"compare\"" := by decide
  have hspeed : (if 0 < parMs then Doc.leaf quotient.text (.number quotient.value)
      else .leaf (str "0.0") (.number 0)).text =
        if 0 < parMs then quotient.text else str "0.0" := by
    split
    · rfl
    · rfl
  rw [h]
  simp only [doc, fields, runDoc, jsnDoc, intDoc, Doc.text, fieldsText, moreFields, keyText, hok,
    hname, hspeed, List.append_assoc, List.append_nil, str_append, str_append_append,
    String.reduceAppend]

theorem metrics_eq (ap dp : PoolSt) (mst : MvStat) (st : ApiStats) (timing : Timing) :
    doMst reqId ap dp mst st timing =
      some ⟨200, ((Reply.metrics ap dp mst st timing).doc reqId).text, jsonType⟩ := by
  have h : doMst reqId ap dp mst st timing = _ :=
    Sends.fresh (.after (writes_bufFmt _) (.after (writes_bufJsn _) (.after (writes_bufPut _)
      (sends_resSet _))))
  have hok := okText (r := .metrics ap dp mst st timing) rfl
  rw [h]
  simp only [doc, fields, poolDoc, poolText, jsnDoc, intDoc, Doc.text, fieldsText, moreFields,
    keyText, hok, List.append_assoc, List.append_nil, str_append, str_append_append,
    String.reduceAppend]

/-- **Every response function writes its reply.** -/
theorem write_eq (r : Reply) :
    r.write reqId = some ⟨r.code, (r.doc reqId).text, jsonType⟩ := by
  cases r with
  | error http code msg failed => exact error_eq http code msg failed
  | sql res meter status reason => exact sql_eq res meter status reason
  | batch resv latMs => exact batch_eq resv latMs
  | txFailed resv latMs => exact txFailed_eq resv latMs
  | health => exact health_eq
  | page mode delayMs workers jobs totalMs => exact page_eq mode delayMs workers jobs totalMs
  | compare delayMs workers seq seqMs par parMs quotient =>
      exact compare_eq delayMs workers seq seqMs par parMs quotient
  | metrics ap dp mst st timing => exact metrics_eq ap dp mst st timing

end Reply

/-! ## Numbers -/

def QJob.numbers (job : QJob) : List Int := [job.tid, job.startMs, job.latMs]

def PageJobs.numbers (jobs : PageJobs) : List Int :=
  pageSumLat jobs :: jobs.all.flatMap QJob.numbers

def PoolSt.numbers (st : PoolSt) : List Nat := [st.size, st.active, st.queued, st.done]

def mvNumbers (mst : MvStat) : List Nat := [mst.txLive, mst.snapMin, mst.verNow, mst.gcWait]

def ApiStats.numbers (st : ApiStats) : List Nat :=
  [st.totalRequests, st.inflightRequests, st.okResponses, st.errorResponses, st.status503,
    st.keepAliveReuse, st.cacheHits, st.cacheMisses]

def Timing.numbers (timing : Timing) : List Nat :=
  [timing.uptimeMs, timing.parseNs, timing.lockWaitNs, timing.engineNs, timing.jsonNs,
    timing.sendNs]

namespace Reply

/-- The numbers that a reply prints. -/
def numbers : Reply → List Int
  | .error _ _ _ _ => []
  | .sql res meter _ _ => [(res.count : Int), res.lastId, meter.tid, meter.latMs, meter.latUs]
  | .batch resv latMs => latMs :: resv.map fun res => (res.count : Int)
  | .txFailed resv latMs => [latMs, ((txCounts resv).1 : Int), ((txCounts resv).2 : Int)]
  | .health => []
  | .page _ delayMs workers jobs totalMs => delayMs :: workers :: totalMs :: jobs.numbers
  | .compare delayMs workers seq seqMs par parMs _ =>
    delayMs :: workers :: seqMs :: parMs :: (seq.numbers ++ par.numbers)
  | .metrics ap dp mst st timing =>
    (ap.numbers ++ dp.numbers ++ mvNumbers mst ++ st.numbers ++ timing.numbers).map Nat.cast

/-- The numbers are numbers of the machine. -/
def Fits (r : Reply) : Prop := ∀ n ∈ r.numbers, Printable n

end Reply

theorem oneDoc_ok (res : DbRes) : (oneDoc res).Ok := by
  unfold oneDoc
  cases res.rows with
  | nil => trivial
  | cons obj rows =>
      refine ⟨objValue (cells obj), ?_, objValue_data _⟩
      rw [objValue_text (cells_nulFree obj), addObj_cells]

theorem docsOk_map {α : Type} {f : α → Doc} {items : List α} (h : ∀ a ∈ items, (f a).Ok) :
    docsOk (items.map f) := by
  induction items with
  | nil => trivial
  | cons a items ih =>
      exact ⟨h a List.mem_cons_self, ih fun b hb => h b (List.mem_cons_of_mem a hb)⟩

theorem pageTraceDoc_ok {jobs : PageJobs} (h : ∀ n ∈ jobs.numbers, Printable n) :
    (pageTraceDoc jobs).Ok := by
  refine docsOk_map fun job hjob => ?_
  have hnum : ∀ n ∈ job.numbers, Printable n := fun n hn =>
    h n (List.mem_cons_of_mem _ (List.mem_flatMap.2 ⟨job, hjob, hn⟩))
  simp only [QJob.numbers, List.forall_mem_cons] at hnum
  obtain ⟨htid, hstart, hlat, -⟩ := hnum
  simp +decide [traceDoc, Doc.Ok, fieldsOk, jsnDoc_ok, boolDoc_ok, intDoc_ok, htid, hstart, hlat]

theorem runDoc_ok {jobs : PageJobs} {totalMs : Int} (h : ∀ n ∈ jobs.numbers, Printable n)
    (htotal : Printable totalMs) : (runDoc jobs totalMs).Ok := by
  have hsum : Printable (pageSumLat jobs) := h _ List.mem_cons_self
  simp +decide [runDoc, Doc.Ok, fieldsOk, pageTraceDoc_ok h, intDoc_ok, hsum, htotal]

namespace Reply

variable {reqId : Bytes}

/-- **A reply is a document**, where its numbers are numbers of the machine. -/
theorem doc_ok {r : Reply} (h : r.Fits) : (r.doc reqId).Ok := by
  refine ⟨by decide, boolDoc_ok _, ?_⟩
  unfold Fits at h
  cases r with
  | error http code msg failed => simp +decide [fields, Doc.Ok, fieldsOk, jsnDoc_ok]
  | sql res meter status reason =>
      simp only [numbers, List.forall_mem_cons] at h
      obtain ⟨hcount, hlast, htid, hms, hus, -⟩ := h
      have hres : (resDoc res).Ok := by
        unfold resDoc
        split
        · simp +decide [Doc.Ok, fieldsOk, rowsDoc_ok, intDoc_ok, hcount, hlast]
        · simp +decide [Doc.Ok, fieldsOk, rowsDoc_ok, intDoc_ok, hcount]
      simp +decide [fields, Doc.Ok, fieldsOk, jsnDoc_ok, intDoc_ok, hres, htid, hms, hus]
  | batch resv latMs =>
      simp only [numbers, List.forall_mem_cons, List.forall_mem_map] at h
      obtain ⟨hms, hcount⟩ := h
      have hresults : docsOk (resv.map fun res =>
          .object [("rows", rowsDoc res.rows), ("count", intDoc res.count)]) := by
        refine docsOk_map fun res hres => ?_
        simp +decide [Doc.Ok, fieldsOk, rowsDoc_ok, intDoc_ok, hcount res hres]
      simp +decide [fields, Doc.Ok, fieldsOk, jsnDoc_ok, intDoc_ok, hresults, hms]
  | txFailed resv latMs =>
      simp only [numbers, List.forall_mem_cons] at h
      obtain ⟨hms, hdone, hfail, -⟩ := h
      simp +decide [fields, Doc.Ok, fieldsOk, jsnDoc_ok, intDoc_ok, hms, hdone, hfail]
  | health => simp +decide [fields, Doc.Ok, fieldsOk, jsnDoc_ok]
  | page mode delayMs workers jobs totalMs =>
      simp only [numbers, List.forall_mem_cons] at h
      obtain ⟨hdelay, hworkers, htotal, hjobs⟩ := h
      have hsum : Printable (pageSumLat jobs) := hjobs _ List.mem_cons_self
      simp +decide [fields, pageDoc, Doc.Ok, fieldsOk, jsnDoc_ok, rowsDoc_ok, oneDoc_ok, intDoc_ok,
        pageTraceDoc_ok hjobs, hsum, hdelay, hworkers, htotal]
  | compare delayMs workers seq seqMs par parMs quotient =>
      simp only [numbers, List.forall_mem_cons, List.forall_mem_append] at h
      obtain ⟨hdelay, hworkers, hseqMs, hparMs, hseq, hpar⟩ := h
      have hspeed : (if 0 < parMs then Doc.leaf quotient.text (.number quotient.value)
          else .leaf (str "0.0") (.number 0)).Ok := by
        split
        · exact ⟨.number quotient, rfl, rfl⟩
        · refine ⟨.number ⟨false, ⟨[48], by decide⟩, fun _ => rfl, some ⟨[48], by decide⟩, none⟩,
            by decide, ?_⟩
          simp [Value.data, Number.value, Digits.val]
      simp +decide [fields, Doc.Ok, fieldsOk, jsnDoc_ok, intDoc_ok, runDoc_ok hseq hseqMs,
        runDoc_ok hpar hparMs, hspeed, hdelay, hworkers]
  | metrics ap dp mst st timing =>
      simp only [numbers, PoolSt.numbers, mvNumbers, ApiStats.numbers, Timing.numbers,
        List.cons_append, List.nil_append, List.map_cons, List.forall_mem_cons] at h
      simp +decide [fields, poolDoc, Doc.Ok, fieldsOk, jsnDoc_ok, intDoc_ok, h]

/-- What a response says: its body is one JSON document, whose members begin with whether the
status code is 200 and end with the number of the request. -/
def SaidBy (r : Reply) (reqId : Bytes) (res : HttpRes) : Prop :=
  res.code = r.code ∧ res.contentType = jsonType ∧ (∃ v : Value, v.text = res.body) ∧
    ∀ v : Value, v.text = res.body →
      v.data = .object ((str "ok", .bool (res.code == 200)) :: fieldsData (r.fields reqId))

/-- **The response function of a reply says the reply.** -/
theorem write_data (r : Reply) (reqId : Bytes) (h : r.Fits) :
    ∃ res, r.write reqId = some res ∧ r.SaidBy reqId res := by
  have hok : (r.doc reqId).Ok := r.doc_ok h
  obtain ⟨v, htext, hdata⟩ := hok.reads
  refine ⟨_, r.write_eq, rfl, rfl, ⟨v, htext⟩, fun v' htext' => ?_⟩
  rw [data_unique (htext'.trans htext.symm), hdata]
  rfl

end Reply

end Api

end MiniDbms
