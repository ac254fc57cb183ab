import MiniDbms.Api.Render

/-!
# The growing buffer

`Buf` of `resp.c` and the writers of `route.c` on it.  Allocation succeeds; a write behind
the allocated bytes is `none`.
-/

namespace MiniDbms

/-- The allocated bytes, and how many of them hold text; a NUL follows it. -/
structure Buf where
  mem : Bytes := []
  len : Nat := 0

namespace Buf

/-- The loop of `buf_grow`. -/
def growCap (target cap : Nat) : Nat :=
  if 0 < cap ∧ cap < target then growCap target (cap * 2) else cap
termination_by target - cap

/-- `buf_grow`. -/
def bufGrow (buf : Buf) (need : Nat) : Buf :=
  if buf.len + need + 1 ≤ buf.mem.length then buf
  else
    let cap := growCap (buf.len + need + 1) (if buf.mem.length = 0 then 256 else buf.mem.length)
    { buf with mem := buf.mem ++ List.replicate (cap - buf.mem.length) 0 }

/-- Bytes that are written at an offset. -/
def poke (mem : Bytes) (offset : Nat) (text : Bytes) : Option Bytes :=
  if offset + text.length ≤ mem.length then
    some (mem.take offset ++ (text ++ mem.drop (offset + text.length)))
  else none

/-- `buf_chr`. -/
def bufChr (ch : UInt8) (buf : Buf) : Option Buf := do
  let buf := buf.bufGrow 1
  let mem ← poke buf.mem buf.len [ch]
  let mem ← poke mem (buf.len + 1) [0]
  some ⟨mem, buf.len + 1⟩

/-- `buf_put`. -/
def bufPut (text : Bytes) (buf : Buf) : Option Buf := do
  let buf := buf.bufGrow text.length
  let mem ← poke buf.mem buf.len text
  let mem ← poke mem (buf.len + text.length) [0]
  some ⟨mem, buf.len + text.length⟩

/-- `buf_fmt`, on the formatted text: `vsnprintf` writes what fits and a NUL. -/
def bufFmt (text : Bytes) (buf : Buf) : Option Buf := do
  let buf := buf.bufGrow text.length
  let mem ← poke buf.mem buf.len (text.take (buf.mem.length - buf.len - 1) ++ [0])
  some ⟨mem, buf.len + text.length⟩

/-- One round of the loop of `buf_jsn`. -/
def jsnChar (b : UInt8) (buf : Buf) : Option Buf :=
  if b = 34 ∨ b = 92 then (bufChr 92 buf).bind (bufChr b)
  else if b = 10 then bufPut (str "\\n") buf
  else if b = 13 then bufPut (str "\\r") buf
  else if b = 9 then bufPut (str "\\t") buf
  else if b < 32 then bufFmt (str "\\u00" ++ [hexDigit (b / 16), hexDigit (b % 16)]) buf
  else bufChr b buf

/-- `buf_jsn`. -/
def bufJsn (text : Bytes) (buf : Buf) : Option Buf := do
  let buf ← bufChr 34 buf
  let buf ← (cstr text).foldlM (fun buf b => jsnChar b buf) buf
  bufChr 34 buf

/-- A loop that puts a comma in front of all but the first. -/
def commaLoop {α : Type} (write : α → Buf → Option Buf) (items : List α) (buf : Buf) :
    Option Buf :=
  items.zipIdx.foldlM
    (fun buf e => (if 0 < e.2 then bufChr comma buf else some buf).bind (write e.1)) buf

/-- `add_obj`. -/
def addObj (obj : DbObj) (buf : Buf) : Option Buf := do
  let buf ← bufChr 123 buf
  let buf ← commaLoop
    (fun c buf => do
      let buf ← bufJsn c.1 buf
      let buf ← bufChr 58 buf
      bufJsn c.2 buf) obj buf
  bufChr 125 buf

/-- `add_rows`. -/
def addRows (rows : List DbObj) (buf : Buf) : Option Buf := do
  let buf ← bufChr 91 buf
  let buf ← commaLoop addObj rows buf
  bufChr 93 buf

/-- `sql_data`. -/
def sqlData (res : DbRes) (buf : Buf) : Option Buf := do
  let buf ← bufChr 123 buf
  let buf ← bufPut (str "\"rows\":") buf
  let buf ← addRows res.rows buf
  let buf ← bufFmt (str ",\"count\":" ++ printL res.count) buf
  (if 0 < res.lastId then bufFmt (str ",\"last_id\":" ++ printL res.lastId) buf
    else some buf).bind (bufChr 125)

def text (buf : Buf) : Bytes := buf.mem.take buf.len

/-- `sql_data_dump`: the text and its length. -/
def sqlDataDump (res : DbRes) : Option (Bytes × Nat) :=
  (sqlData res {}).map fun buf => (buf.text, buf.len)

/-! ## Growing -/

theorem le_growCap (target : Nat) : ∀ {cap : Nat}, 0 < cap →
    target ≤ growCap target cap ∧ cap ≤ growCap target cap := by
  intro cap
  induction hn : target - cap using Nat.strong_induction_on generalizing cap with
  | _ n ih =>
    intro hpos
    rw [growCap]
    split
    · rename_i hlt
      obtain ⟨h₁, h₂⟩ := @ih (target - cap * 2) (by omega) (cap * 2) rfl (by omega)
      exact ⟨h₁, by omega⟩
    · rename_i hge
      have hle : target ≤ cap := by
        by_contra hlt
        exact hge ⟨hpos, by omega⟩
      exact ⟨hle, Nat.le_refl cap⟩

/-- The text is inside the allocated bytes. -/
def Ok (buf : Buf) : Prop := buf.len ≤ buf.mem.length

theorem bufGrow_spec {buf : Buf} (h : buf.Ok) (need : Nat) :
    (buf.bufGrow need).len = buf.len ∧ (buf.bufGrow need).text = buf.text ∧
      buf.len + need + 1 ≤ (buf.bufGrow need).mem.length := by
  unfold bufGrow
  split
  · rename_i hroom
    exact ⟨rfl, rfl, hroom⟩
  · refine ⟨rfl, ?_, ?_⟩
    · exact List.take_append_of_le_length h
    · obtain ⟨hle, hcap⟩ := @le_growCap (buf.len + need + 1)
        (if buf.mem.length = 0 then 256 else buf.mem.length) (by split <;> omega)
      simp only [List.length_append, List.length_replicate]
      omega

theorem poke_some {mem text : Bytes} {offset : Nat} (h : offset + text.length ≤ mem.length) :
    ∃ mem', poke mem offset text = some mem' ∧ mem'.length = mem.length ∧
      mem'.take (offset + text.length) = mem.take offset ++ text ∧
        ∀ n ≤ offset, mem'.take n = mem.take n := by
  have hfront : (mem.take offset).length = offset := by
    rw [List.length_take]
    omega
  refine ⟨_, if_pos h, ?_, ?_, ?_⟩
  · simp only [List.length_append, List.length_take, List.length_drop]
    omega
  · rw [List.take_append, hfront, List.take_of_length_le (by omega), Nat.add_sub_cancel_left,
      List.take_left]
  · intro n hn
    rw [List.take_append_of_le_length (by omega), List.take_take, Nat.min_eq_left hn]

/-! ## Writers -/

/-- The writer appends a text and never leaves the allocated bytes. -/
def Writes (write : Buf → Option Buf) (t : Bytes) : Prop :=
  ∀ buf : Buf, buf.Ok → ∃ buf', write buf = some buf' ∧ buf'.Ok ∧ buf'.text = buf.text ++ t

theorem writes_bufPut (t : Bytes) : Writes (bufPut t) t := by
  intro buf h
  obtain ⟨hlen, htext, hroom⟩ := bufGrow_spec h t.length
  obtain ⟨mem₁, hput, hlen₁, htake₁, -⟩ := @poke_some (buf.bufGrow t.length).mem t
    (buf.bufGrow t.length).len (by omega)
  obtain ⟨mem₂, hnul, hlen₂, -, htake₂⟩ := @poke_some mem₁ [0]
    ((buf.bufGrow t.length).len + t.length) (by rw [List.length_singleton]; omega)
  refine ⟨⟨mem₂, (buf.bufGrow t.length).len + t.length⟩, ?_, ?_, ?_⟩
  · unfold bufPut
    simp only [hput, hnul, Option.bind_eq_bind, Option.bind_some]
  · unfold Ok
    simp only
    omega
  · rw [← htext]
    exact (htake₂ _ (Nat.le_refl _)).trans htake₁

theorem writes_bufChr (ch : UInt8) : Writes (bufChr ch) [ch] := by
  intro buf h
  obtain ⟨hlen, htext, hroom⟩ := bufGrow_spec h 1
  obtain ⟨mem₁, hput, hlen₁, htake₁, -⟩ := @poke_some (buf.bufGrow 1).mem [ch]
    (buf.bufGrow 1).len (by rw [List.length_singleton]; omega)
  obtain ⟨mem₂, hnul, hlen₂, -, htake₂⟩ := @poke_some mem₁ [0] ((buf.bufGrow 1).len + 1)
    (by rw [List.length_singleton]; omega)
  refine ⟨⟨mem₂, (buf.bufGrow 1).len + 1⟩, ?_, ?_, ?_⟩
  · unfold bufChr
    simp only [hput, hnul, Option.bind_eq_bind, Option.bind_some]
  · unfold Ok
    simp only
    omega
  · rw [← htext]
    exact (htake₂ _ (Nat.le_refl _)).trans htake₁

theorem writes_bufFmt (t : Bytes) : Writes (bufFmt t) t := by
  intro buf h
  obtain ⟨hlen, htext, hroom⟩ := bufGrow_spec h t.length
  have hfit : t.take ((buf.bufGrow t.length).mem.length - (buf.bufGrow t.length).len - 1) = t :=
    List.take_of_length_le (by omega)
  obtain ⟨mem₁, hput, hlen₁, htake₁, -⟩ := @poke_some (buf.bufGrow t.length).mem (t ++ [0])
    (buf.bufGrow t.length).len (by rw [List.length_append, List.length_singleton]; omega)
  refine ⟨⟨mem₁, (buf.bufGrow t.length).len + t.length⟩, ?_, ?_, ?_⟩
  · unfold bufFmt
    simp only [hfit, hput, Option.bind_eq_bind, Option.bind_some]
  · unfold Ok
    simp only
    omega
  · have hshort := congrArg (List.take ((buf.bufGrow t.length).len + t.length)) htake₁
    rw [List.take_take, List.length_append, List.length_singleton,
      Nat.min_eq_left (Nat.add_le_add_left (Nat.le_succ _) _), ← List.append_assoc] at hshort
    rw [← htext]
    refine hshort.trans (List.take_left' ?_)
    rw [List.length_append, List.length_take]
    omega

variable {f g : Buf → Option Buf} {s t : Bytes}

theorem writes_none : Writes some [] := fun buf h => ⟨buf, rfl, h, (List.append_nil _).symm⟩

theorem Writes.bind (hf : Writes f s) (hg : Writes g t) :
    Writes (fun buf => (f buf).bind g) (s ++ t) := by
  intro buf h
  obtain ⟨buf₁, h₁, hok₁, htext₁⟩ := hf buf h
  obtain ⟨buf₂, h₂, hok₂, htext₂⟩ := hg buf₁ hok₁
  refine ⟨buf₂, ?_, hok₂, ?_⟩
  · simp only [h₁, Option.bind_some, h₂]
  · rw [htext₂, htext₁, List.append_assoc]

theorem Writes.loop {α : Type} {write : α → Buf → Option Buf} {textOf : α → Bytes}
    (h : ∀ a, Writes (write a) (textOf a)) : ∀ items : List α,
      Writes (fun buf => items.foldlM (fun buf a => write a buf) buf) (items.flatMap textOf)
  | [] => writes_none
  | a :: items => by
      simp only [List.foldlM_cons, List.flatMap_cons]
      exact (h a).bind (Writes.loop h items)

theorem commaSep_cons {x : Bytes} : ∀ xs : List Bytes,
    commaSep (x :: xs) = x ++ xs.flatMap (comma :: ·)
  | [] => by simp [commaSep]
  | y :: ys => by
      rw [commaSep, commaSep_cons ys, List.flatMap_cons, List.cons_append]

theorem writes_commaLoop {α : Type} {write : α → Buf → Option Buf} {textOf : α → Bytes}
    (h : ∀ a, Writes (write a) (textOf a)) (items : List α) :
    Writes (commaLoop write items) (commaSep (items.map textOf)) := by
  have hround : ∀ e : α × Nat, Writes
      (fun buf => (if 0 < e.2 then bufChr comma buf else some buf).bind (write e.1))
      ((if 0 < e.2 then [comma] else []) ++ textOf e.1) := by
    intro e
    by_cases hpos : 0 < e.2
    · simp only [if_pos hpos]
      exact (writes_bufChr comma).bind (h e.1)
    · simp only [if_neg hpos]
      exact writes_none.bind (h e.1)
  have htext : (items.zipIdx.flatMap fun e => (if 0 < e.2 then [comma] else []) ++ textOf e.1) =
      commaSep (items.map textOf) := by
    cases items with
    | nil => rfl
    | cons a items =>
        rw [List.map_cons, commaSep_cons, List.zipIdx_cons, List.flatMap_cons]
        simp only [Nat.lt_irrefl, if_false, List.nil_append, Nat.zero_add]
        congr 1
        have hlater : ∀ (l : List α) (i : Nat), 0 < i →
            ((l.zipIdx i).flatMap fun e => (if 0 < e.2 then [comma] else []) ++ textOf e.1) =
              (l.map textOf).flatMap (comma :: ·) := by
          intro l
          induction l with
          | nil => exact fun _ _ => rfl
          | cons b l ih =>
              intro i hi
              rw [List.zipIdx_cons, List.flatMap_cons, ih (i + 1) (Nat.succ_pos i), List.map_cons,
                List.flatMap_cons]
              simp only [if_pos hi, List.cons_append, List.nil_append]
        exact hlater items 1 Nat.one_pos
  rw [← htext]
  exact Writes.loop hround items.zipIdx

theorem writes_jsnChar (b : UInt8) : Writes (jsnChar b) (jsnByte b) := by
  unfold jsnChar jsnByte
  by_cases h₁ : b = 34 ∨ b = 92
  · simp only [if_pos h₁]
    exact (writes_bufChr 92).bind (writes_bufChr b)
  simp only [if_neg h₁]
  by_cases h₂ : b = 10
  · simp only [if_pos h₂]
    exact writes_bufPut _
  simp only [if_neg h₂]
  by_cases h₃ : b = 13
  · simp only [if_pos h₃]
    exact writes_bufPut _
  simp only [if_neg h₃]
  by_cases h₄ : b = 9
  · simp only [if_pos h₄]
    exact writes_bufPut _
  simp only [if_neg h₄]
  by_cases h₅ : b < 32
  · simp only [if_pos h₅]
    exact writes_bufFmt _
  · simp only [if_neg h₅]
    exact writes_bufChr b

theorem writes_bufJsn (t : Bytes) : Writes (bufJsn t) (MiniDbms.bufJsn t) := by
  have h := (writes_bufChr 34).bind ((Writes.loop writes_jsnChar (cstr t)).bind (writes_bufChr 34))
  rw [List.singleton_append] at h
  exact h

theorem writes_addObj (obj : DbObj) : Writes (addObj obj) (MiniDbms.addObj obj) := by
  have hcell : ∀ c : Bytes × Bytes, Writes
      (fun buf => (bufJsn c.1 buf).bind fun buf => (bufChr 58 buf).bind (bufJsn c.2))
      (MiniDbms.bufJsn c.1 ++ 58 :: MiniDbms.bufJsn c.2) := fun c =>
    (writes_bufJsn c.1).bind ((writes_bufChr 58).bind (writes_bufJsn c.2))
  exact (writes_bufChr 123).bind ((writes_commaLoop hcell obj).bind (writes_bufChr 125))

theorem writes_addRows (rows : List DbObj) : Writes (addRows rows) (MiniDbms.addRows rows) :=
  (writes_bufChr 91).bind ((writes_commaLoop writes_addObj rows).bind (writes_bufChr 93))

theorem writes_sqlData (res : DbRes) : Writes (sqlData res) (MiniDbms.sqlData res) := by
  have hlast : Writes
      (fun buf => if 0 < res.lastId then bufFmt (str ",\"last_id\":" ++ printL res.lastId) buf
        else some buf)
      (if 0 < res.lastId then str ",\"last_id\":" ++ printL res.lastId else []) := by
    by_cases hpos : 0 < res.lastId
    · simp only [if_pos hpos]
      exact writes_bufFmt _
    · simp only [if_neg hpos]
      exact writes_none
  have h := (writes_bufChr 123).bind ((writes_bufPut (str "\"rows\":")).bind
    ((writes_addRows res.rows).bind ((writes_bufFmt (str ",\"count\":" ++ printL res.count)).bind
      (hlast.bind (writes_bufChr 125)))))
  have htext : MiniDbms.sqlData res = [123] ++ (str "\"rows\":" ++ (MiniDbms.addRows res.rows ++
      (str ",\"count\":" ++ printL res.count ++
        ((if 0 < res.lastId then str ",\"last_id\":" ++ printL res.lastId else []) ++ [125])))) := by
    unfold MiniDbms.sqlData
    simp only [List.append_assoc, List.cons_append, List.nil_append]
  rw [htext]
  exact h

theorem sqlDataDump_eq (res : DbRes) :
    sqlDataDump res = some (MiniDbms.sqlData res, (MiniDbms.sqlData res).length) := by
  obtain ⟨buf, hbuf, hok, htext⟩ := writes_sqlData res {} (Nat.le_refl _)
  have hnil : ({} : Buf).text = [] := rfl
  rw [hnil, List.nil_append] at htext
  unfold sqlDataDump
  rw [hbuf, Option.map_some, htext, ← htext]
  unfold text
  rw [List.length_take, Nat.min_eq_left hok]

end Buf

end MiniDbms
