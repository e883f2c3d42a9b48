import PartProgram.Proofs.Calls

/-!
# A text in parts

A caller who gets a text in parts, cut at any places, has the reader read them one by one. After a
fault it may go on with the parts that are left: the reader has stopped and passes over them. So the
parts do together what the text does at once, and the cuts do not show in what the builder is told nor
in the reader (`performAll_parts`, `told_parts`).

They show in the answers at one point only. A reader that had stopped before answers an empty part
as if it had been read (`answer_of_failed`); from a reader that is still going, all parts are answered
well exactly if the text is.
-/

namespace PartProgram.Block

open Number Reader

variable {σ : Type} {rules : Rules} {b : Builder σ} {r : Reader} {s : σ} {t : Bytes}

/-- The calls, one after the other. -/
def performAll (rules : Rules) (b : Builder σ) (calls : List Call) (r : Reader) (s : σ) : Reader × σ :=
  calls.foldl (fun (r, s) call => perform rules b call r s) (r, s)

theorem performAll_cons (call : Call) (calls : List Call) (r : Reader) (s : σ) :
    performAll rules b (call :: calls) r s =
      performAll rules b calls (perform rules b call r s).1 (perform rules b call r s).2 := rfl

/-- What the builder is told by calls that are made one after the other. -/
def toldBy (rules : Rules) (b : Builder σ) (calls : List Call) (r : Reader) (s : σ) : List (Event × Answer) :=
  (replies rules b calls r s).flatMap (·.told)

theorem toldBy_cons (call : Call) (calls : List Call) (r : Reader) (s : σ) :
    toldBy rules b (call :: calls) r s =
      (reply rules b call r s).told ++
        toldBy rules b calls (perform rules b call r s).1 (perform rules b call r s).2 := by
  rw [toldBy, replies_cons, List.flatMap_cons, toldBy]

/-! ### Where a text ends -/

/-- A reader that was going before a text is going after it exactly if all of it was read. -/
theorem feedText_answer (t : Bytes) : ∀ {r : Reader} {s : σ}, r.failed = false →
    (feedText rules b t r s).1 = !(feedText rules b t r s).2.1.failed := by
  induction t with
  | nil =>
    intro r s hr
    simp [feedText, hr]
  | cons c t ih =>
    intro r s _
    rw [feedText]
    simp only
    split_ifs with hf
    · simp [hf]
    · exact ih (by simpa using hf)

/-- A text of which not all was read leaves the reader stopped. -/
theorem failed_of_feedText (h : (feedText rules b t r s).1 = false) : (feedText rules b t r s).2.1.failed = true := by
  cases hr : r.failed with
  | true => rw [feedText_of_failed hr, hr]
  | false =>
    rw [feedText_answer t hr] at h
    simpa using h

/-! ### Two parts -/

/-- A text does what its two parts do one after the other, also if the first of them has a fault. -/
theorem perform_append (rules : Rules) (b : Builder σ) (t u : Bytes) (r : Reader) (s : σ) :
    perform rules b (.text (t ++ u)) r s =
      perform rules b (.text u) (perform rules b (.text t) r s).1 (perform rules b (.text t) r s).2 := by
  simp only [perform]
  rw [feedText_append]
  split_ifs with ht
  · rfl
  · have hstopped : (feedText rules b t r s).2.1.failed = true := failed_of_feedText (by simpa using ht)
    rw [feedText_of_failed hstopped]

/-- What a builder has noted before does not matter to what it notes now. -/
theorem refines_notes {ε : Type} (note : Event → Answer → ε) (b : Builder σ) (before : List ε) :
    Refines (Prod.map id (before ++ ·)) (record note b) (record note b) := by
  rintro e ⟨s, notes⟩
  simp [record]

/-- With notes already there, a call leaves the reader and the state that it leaves, and adds what the
builder is told. -/
theorem perform_record (rules : Rules) (b : Builder σ) (call : Call) (r : Reader) (s : σ)
    (before : List (Event × Answer)) :
    perform rules (record Prod.mk b) call r (s, before) =
      ((perform rules b call r s).1, (perform rules b call r s).2, before ++ (reply rules b call r s).told) := by
  have hnotes : perform rules (record Prod.mk b) call r (s, before ++ []) =
      Prod.map id (Prod.map id (before ++ ·)) (perform rules (record Prod.mk b) call r (s, [])) :=
    (refines_notes Prod.mk b before).perform call r (s, [])
  have hstate : perform rules b call r s = Prod.map id Prod.fst (perform rules (record Prod.mk b) call r (s, [])) :=
    (refines_record Prod.mk b).perform call r (s, [])
  rw [List.append_nil] at hnotes
  rw [hnotes, hstate]
  rfl

theorem told_append_text (rules : Rules) (b : Builder σ) (t u : Bytes) (r : Reader) (s : σ) :
    (reply rules b (.text (t ++ u)) r s).told =
      (reply rules b (.text t) r s).told ++
        (reply rules b (.text u) (perform rules b (.text t) r s).1 (perform rules b (.text t) r s).2).told := by
  have h := perform_append rules (record Prod.mk b) t u r (s, [])
  rw [perform_record, perform_record, perform_record] at h
  exact congrArg (fun x => x.2.2) h

/-! ### Any number of parts -/

/-- The parts do together what the text does. -/
theorem performAll_parts (parts : List Bytes) : ∀ (r : Reader) (s : σ),
    performAll rules b (parts.map .text) r s = perform rules b (.text parts.flatten) r s := by
  induction parts with
  | nil => intro r s; rfl
  | cons t parts ih =>
    intro r s
    rw [List.map_cons, performAll_cons, ih, List.flatten_cons, perform_append]

/-- Of the parts the builder is told what it is told of the text. -/
theorem told_parts (parts : List Bytes) : ∀ (r : Reader) (s : σ),
    toldBy rules b (parts.map .text) r s = (reply rules b (.text parts.flatten) r s).told := by
  induction parts with
  | nil => intro r s; rfl
  | cons t parts ih =>
    intro r s
    rw [List.map_cons, toldBy_cons, ih, List.flatten_cons, told_append_text]

theorem feedText_parts (parts : List Bytes) : ∀ {r : Reader} {s : σ}, r.failed = false →
    ((feedText rules b parts.flatten r s).1 = true ↔
      ∀ o ∈ replies rules b (parts.map .text) r s, o.answer = some true) := by
  induction parts with
  | nil =>
    intro r s _
    simp [feedText, replies]
  | cons t parts ih =>
    intro r s hr
    rw [List.map_cons, replies_cons, List.forall_mem_cons, List.flatten_cons, feedText_append]
    have hanswer : (reply rules b (.text t) r s).answer = some (feedText rules b t r s).1 := rfl
    rw [hanswer]
    -- The first part that is not all read settles both sides; until then the reader is going.
    cases ht : (feedText rules b t r s).1 with
    | false => simp [ht]
    | true =>
      have hgoing : (feedText rules b t r s).2.1.failed = false := by
        rw [feedText_answer t hr] at ht
        simpa using ht
      rw [if_pos rfl, ih hgoing]
      simp [perform]

/-- **The cuts of a text do not show.** Whatever the reader has come to, reading the parts of a text
one by one, going on after a fault, tells the builder what reading the text at once does, and leaves
the same reader, with the same fault, and the same state of the builder. If the reader was going, the
text is answered well exactly if all its parts are. -/
theorem parts_read_as_one (rules : Rules) (b : Builder σ) (parts : List Bytes) (r : Reader) (s : σ) :
    let calls := parts.map Call.text
    let whole := Call.text parts.flatten
    performAll rules b calls r s = perform rules b whole r s ∧
      toldBy rules b calls r s = (reply rules b whole r s).told ∧
      (r.failed = false →
        ((reply rules b whole r s).answer = some true ↔ ∀ o ∈ replies rules b calls r s, o.answer = some true)) := by
  intro calls whole
  refine ⟨performAll_parts parts r s, told_parts parts r s, fun hr => ?_⟩
  have hanswer : (reply rules b whole r s).answer = some (feedText rules b parts.flatten r s).1 := rfl
  rw [hanswer, Option.some.injEq]
  exact feedText_parts parts hr

/-- The cuts are in an index and in a comment, an empty part is between them, and the builder refuses
the word that the last cut is in; the rest of the text is passed over. -/
theorem parts_read_as_one_refused :
    let parts := [ascii "G1 R1", ascii "2=5 (no", [], ascii "te) X", ascii "7\nM2", ascii "\n"]
    let calls := parts.map Call.text
    (replies {} (refusing 0x58) calls {} ()).map (·.answer) =
        [some true, some true, some true, some true, some false, some false] ∧
      (reply {} (refusing 0x58) (.text parts.flatten) {} ()).answer ≠ some true := by
  intro parts calls
  have h : (replies {} (refusing 0x58) calls {} ()).map (·.answer) =
      [some true, some true, some true, some true, some false, some false] := by decide
  refine ⟨h, fun hwhole => ?_⟩
  have hall := ((parts_read_as_one {} (refusing 0x58) parts {} ()).2.2 rfl).mp hwhole
  have hmem : some false ∈ (replies {} (refusing 0x58) calls {} ()).map (·.answer) := by simp [h]
  obtain ⟨o, ho, hfalse⟩ := List.mem_map.mp hmem
  have htrue := hall o ho
  rw [hfalse] at htrue
  contradiction

end PartProgram.Block
