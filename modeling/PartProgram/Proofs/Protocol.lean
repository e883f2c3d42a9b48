import PartProgram.Proofs.Resynchronization
import Mathlib.Data.List.Induction

/-!
# What a builder can rely on

A builder is called in a certain order, however the caller of the reader goes about it and whatever
the builder answers. Here a *session* is any sequence of calls on a new reader, and its *transcript*
has in one list the calls, the events with the builder's answers, the line ends that were read and
the `%` that ended a program (`session`). The order is a condition on each event and the part of the
transcript before it (`Permitted`); all conditions say that something happened since, or did not
happen since, something else (`Since`).

The reader remembers just enough to keep to the order. What it remembers is tied to the transcript by
`InStep`: a program is running when the builder has accepted its start and nothing ended it since;
a block has content when an event of it was told, except while its first word is being read; and a
reader that a refusal has stopped tells nothing more. At the end of a block that does not hold for a
moment, between the event and the line end being noted, and there only `Kept` is left; between the
start of a program and what made it start, only `Tracked`.
-/

namespace PartProgram.Block

open Number Reader

variable {σ : Type} {rules : Rules} {b : Builder σ} {c : UInt8} {r : Reader} {s : σ}

/-! ### Sessions -/

/-- What a caller can do with a reader. -/
inductive Call where
  /-- Have it read a byte. -/
  | byte (c : UInt8)
  /-- Have it read a text up to the first fault. -/
  | text (t : Bytes)
  /-- Tell it of the end of the input. -/
  | finish
  /-- Have it give up the block. -/
  | skipBlock
  /-- Have it start over. -/
  | reset
  deriving DecidableEq, Repr

/-- What happens in a session. -/
inductive Entry where
  /-- The caller makes a call. -/
  | called (call : Call)
  /-- The builder is told of an event, and answers. -/
  | told (event : Event) (answer : Answer)
  /-- A line end has been read. -/
  | lineEnd
  /-- A `%` at the start of a block has been read. -/
  | marker
  deriving DecidableEq, Repr

/-- The caller makes a call. -/
def perform (rules : Rules) (b : Builder σ) (call : Call) (r : Reader) (s : σ) : Reader × σ :=
  match call with
  | .byte c => r.feed rules b c s
  | .text t => (feedText rules b t r s).2
  | .finish => r.finish rules b s
  | .skipBlock => (r.skipBlock, s)
  | .reset => (r.reset, s)

/-- The calls, one after the other, on a new reader. -/
def run (rules : Rules) (b : Builder σ) (calls : List Call) (s : σ) : Reader × σ :=
  calls.foldl (fun (r, s) call => perform rules b call r s) ({}, s)

/-- What is noted of a byte besides the events: a line end, or the end of a program. A reader that
has stopped does not read. -/
def marks (c : UInt8) (r : Reader) : List Entry :=
  if r.failed then []
  else if c = Byte.lf then [.lineEnd]
  else if c = Byte.percent ∧ r.mode = .blockStart ∧ ¬ r.hasContent then [.marker]
  else []

/-- Read a byte and add to the transcript. -/
def noteByte (rules : Rules) (b : Builder σ) (c : UInt8) (r : Reader) (x : σ × List Entry) :
    Reader × σ × List Entry :=
  let (r', s', entries) := r.feed rules (record .told b) c x
  (r', s', entries ++ marks c r)

/-- Read a text up to the first fault and add to the transcript. -/
def noteText (rules : Rules) (b : Builder σ) : Bytes → Reader → σ × List Entry → Reader × σ × List Entry
  | [], r, x => (r, x)
  | c :: t, r, x =>
    let (r', x') := noteByte rules b c r x
    if r'.failed then (r', x') else noteText rules b t r' x'

/-- The caller makes a call; all of it goes into the transcript. -/
def note (rules : Rules) (b : Builder σ) (call : Call) (r : Reader) (x : σ × List Entry) : Reader × σ × List Entry :=
  let x' := (x.1, x.2 ++ [.called call])
  match call with
  | .byte c => noteByte rules b c r x'
  | .text t => noteText rules b t r x'
  | .finish =>
    if r.failed then (r, x')
    else if r.mode = .blockStart ∧ ¬ r.hasContent then (r, x')
    else noteByte rules b Byte.lf r x'
  | .skipBlock => (r.skipBlock, x')
  | .reset => (r.reset, x')

/-- A session with a new reader: the reader, the builder's state and the transcript at its end. -/
def session (rules : Rules) (b : Builder σ) (calls : List Call) (s : σ) : Reader × σ × List Entry :=
  calls.foldl (fun (r, x) call => note rules b call r x) ({}, s, [])

/-! ### A session is what the calls do -/

theorem feed_noteByte (c : UInt8) (r : Reader) (x : σ × List Entry) :
    r.feed rules b c x.1 = ((noteByte rules b c r x).1, (noteByte rules b c r x).2.1) :=
  (refines_record Entry.told b).feed c r x

theorem feedText_noteText (t : Bytes) : ∀ (r : Reader) (x : σ × List Entry),
    (feedText rules b t r x.1).2 = ((noteText rules b t r x).1, (noteText rules b t r x).2.1) := by
  induction t with
  | nil => intro r x; rfl
  | cons c t ih =>
    intro r x
    rw [feedText, noteText, feed_noteByte c r x]
    simp only
    split
    · rfl
    · exact ih _ _

theorem perform_note (call : Call) (r : Reader) (x : σ × List Entry) :
    perform rules b call r x.1 = ((note rules b call r x).1, (note rules b call r x).2.1) := by
  cases call with
  | byte c =>
    have h := @feed_noteByte σ rules b c r (x.1, x.2 ++ [.called (.byte c)])
    simp only [perform, note]
    exact h
  | text t =>
    have h := @feedText_noteText σ rules b t r (x.1, x.2 ++ [.called (.text t)])
    simp only [perform, note]
    exact h
  | finish =>
    have h := @feed_noteByte σ rules b Byte.lf r (x.1, x.2 ++ [.called .finish])
    simp only [perform, Reader.finish, note]
    split_ifs
    · rfl
    · rfl
    · exact h
  | skipBlock => rfl
  | reset => rfl

/-- Without its transcript a session is what the calls do, one after the other. -/
theorem session_eq_run (rules : Rules) (b : Builder σ) (calls : List Call) (s : σ) :
    ((session rules b calls s).1, (session rules b calls s).2.1) = run rules b calls s := by
  induction calls using List.reverseRecOn with
  | nil => rfl
  | append_singleton calls call ih =>
    rw [run, List.foldl_append, ← run, ← ih, session, List.foldl_append]
    exact (perform_note call _ _).symm

/-! ### Since -/

/-- Something in the list is `x`, and nothing after it is `stop`. -/
def Since (stop x : Entry → Prop) (entries : List Entry) : Prop :=
  ∃ before z after, entries = before ++ z :: after ∧ x z ∧ ∀ y ∈ after, ¬ stop y

/-- To cut a list with one more entry is to cut it before that entry, or to cut the list without
it. -/
theorem snoc_eq_append_cons_iff {entries before after : List Entry} {y z : Entry} :
    entries ++ [z] = before ++ y :: after ↔
      (after = [] ∧ y = z ∧ before = entries) ∨
        ∃ after', after = after' ++ [z] ∧ entries = before ++ y :: after' := by
  constructor
  · intro h
    obtain rfl | ⟨after', w, rfl⟩ := List.eq_nil_or_concat after
    · obtain ⟨rfl, hz⟩ := List.append_inj' h rfl
      exact Or.inl ⟨rfl, (List.singleton_inj.mp hz).symm, rfl⟩
    · rw [List.concat_eq_append, ← List.cons_append, ← List.append_assoc] at h
      obtain ⟨rfl, hz⟩ := List.append_inj' h rfl
      rw [List.concat_eq_append, List.singleton_inj.mp hz]
      exact Or.inr ⟨after', rfl, rfl⟩
  · rintro (⟨rfl, rfl, rfl⟩ | ⟨after', rfl, rfl⟩)
    · rfl
    · simp

theorem not_since_nil (stop x : Entry → Prop) : ¬ Since stop x [] := by
  rintro ⟨before, z, after, h, -, -⟩
  simp at h

theorem since_snoc {stop x : Entry → Prop} {entries : List Entry} {z : Entry} :
    Since stop x (entries ++ [z]) ↔ x z ∨ ¬ stop z ∧ Since stop x entries := by
  constructor
  · rintro ⟨before, y, after, h, hy, hafter⟩
    obtain ⟨-, rfl, -⟩ | ⟨after', rfl, rfl⟩ := snoc_eq_append_cons_iff.mp h
    · exact Or.inl hy
    · refine Or.inr ⟨hafter z (by simp), before, y, after', rfl, hy, ?_⟩
      intro w hw
      exact hafter w (by simp [hw])
  · rintro (hz | ⟨hz, before, y, after, rfl, hy, hafter⟩)
    · exact ⟨entries, z, [], rfl, hz, by simp⟩
    · refine ⟨before, y, after ++ [z], by simp, hy, ?_⟩
      intro w hw
      obtain hw | hw := List.mem_append.mp hw
      · exact hafter w hw
      · rwa [List.mem_singleton.mp hw]

/-! ### What has happened -/

/-- An event that makes a block one of which the builder is told the end. -/
def Event.IsContent (e : Event) : Prop := e = .blockDelete ∨ e.isWord = true

/-- The entry ends a program. -/
def EndsProgram (z : Entry) : Prop := z = .called .reset ∨ z = .marker

/-- The entry lets a reader go on that has stopped. -/
def Resumes (z : Entry) : Prop := z = .called .skipBlock ∨ z = .called .reset

/-- The entry ends a line, or what was read of it. -/
def EndsLine (z : Entry) : Prop := z = .lineEnd ∨ Resumes z

/-- The entry ends a block. -/
def EndsBlock (z : Entry) : Prop := (∃ a, z = .told .endBlock a) ∨ EndsLine z

/-- The builder has accepted the start of a program, and nothing has ended the program. -/
def Running : List Entry → Prop := Since EndsProgram (· = .told .programStart .accept)

/-- The builder has been told of such an event in the block. -/
def InBlock (p : Event → Prop) : List Entry → Prop := Since EndsBlock (fun z => ∃ e a, z = .told e a ∧ p e)

/-- The builder has been told of the end of the block. -/
def BlockEnded : List Entry → Prop := Since EndsLine (fun z => ∃ a, z = .told .endBlock a)

/-- The builder has refused something with this code, and the reader has not been made to go on. -/
def Refused (k : Int) : List Entry → Prop := Since Resumes (fun z => ∃ e, z = .told e (.refuse k))

section

variable {entries : List Entry} {z : Entry} {p : Event → Prop} {k : Int}

@[simp] theorem running_snoc :
    Running (entries ++ [z]) ↔
      z = .told .programStart .accept ∨ (z ≠ .called .reset ∧ z ≠ .marker) ∧ Running entries := by
  rw [Running, since_snoc, EndsProgram, not_or]

@[simp] theorem inBlock_snoc :
    InBlock p (entries ++ [z]) ↔ (∃ e a, z = .told e a ∧ p e) ∨
      ((∀ a, z ≠ .told .endBlock a) ∧ z ≠ .lineEnd ∧ z ≠ .called .skipBlock ∧ z ≠ .called .reset) ∧
        InBlock p entries := by
  rw [InBlock, since_snoc, EndsBlock, EndsLine, Resumes, not_or, not_or, not_or, not_exists]

@[simp] theorem blockEnded_snoc :
    BlockEnded (entries ++ [z]) ↔ (∃ a, z = .told .endBlock a) ∨
      (z ≠ .lineEnd ∧ z ≠ .called .skipBlock ∧ z ≠ .called .reset) ∧ BlockEnded entries := by
  rw [BlockEnded, since_snoc, EndsLine, Resumes, not_or, not_or]

@[simp] theorem refused_snoc :
    Refused k (entries ++ [z]) ↔ (∃ e, z = .told e (.refuse k)) ∨
      (z ≠ .called .skipBlock ∧ z ≠ .called .reset) ∧ Refused k entries := by
  rw [Refused, since_snoc, Resumes, not_or]

end

/-! ### The order of events -/

/-- The builder may be told of the event after these entries. -/
structure Permitted (e : Event) (before : List Entry) : Prop where
  /-- The start of a program is told when no program is running, all else when one is. -/
  running : Running before ↔ e ≠ .programStart
  /-- A block is marked at most once, and before its words. -/
  blockDelete : e = .blockDelete → ¬ InBlock Event.IsContent before
  /-- A block has at most one number, and that is its first word. -/
  sequenceNumber : ∀ alignment number, e = .sequenceNumber alignment number → ¬ InBlock (·.isWord) before
  /-- The end is told of a block with content. -/
  endBlock : e = .endBlock → InBlock Event.IsContent before
  /-- The end is the last that is told of a block. -/
  not_ended : ¬ BlockEnded before
  /-- Nothing is told after a refusal. -/
  not_refused : ∀ k, ¬ Refused k before

/-- Every event is permitted when the builder is told of it. -/
def Orderly (entries : List Entry) : Prop :=
  ∀ before e a after, entries = before ++ .told e a :: after → Permitted e before

/-- After the start of a program comes at once what made it start. -/
def StartsWithContent (entries : List Entry) : Prop :=
  ∀ before after, entries = before ++ .told .programStart .accept :: after →
    ∃ e a rest, after = .told e a :: rest ∧ e.IsContent

section

variable {entries : List Entry} {z : Entry} {e : Event} {a : Answer}

theorem orderly_nil : Orderly [] := by
  intro before e a after h
  simp at h

theorem startsWithContent_nil : StartsWithContent [] := by
  intro before after h
  simp at h

theorem Orderly.snoc (h : Orderly entries) (hz : ∀ e a, z = .told e a → Permitted e entries) :
    Orderly (entries ++ [z]) := by
  intro before e a after heq
  obtain ⟨-, rfl, rfl⟩ | ⟨after', -, rfl⟩ := snoc_eq_append_cons_iff.mp heq
  · exact hz e a rfl
  · exact h before e a after' rfl

theorem StartsWithContent.snoc (h : StartsWithContent entries) (hz : z ≠ .told .programStart .accept) :
    StartsWithContent (entries ++ [z]) := by
  intro before after heq
  obtain ⟨-, rfl, -⟩ | ⟨after', rfl, rfl⟩ := snoc_eq_append_cons_iff.mp heq
  · exact absurd rfl hz
  · obtain ⟨e, a, rest, rfl, he⟩ := h before after' rfl
    exact ⟨e, a, rest ++ [z], rfl, he⟩

theorem StartsWithContent.start (h : StartsWithContent entries) (he : e.IsContent) :
    StartsWithContent (entries ++ [.told .programStart .accept] ++ [.told e a]) := by
  intro before after heq
  obtain ⟨-, hstart, -⟩ | ⟨after', rfl, heq'⟩ := snoc_eq_append_cons_iff.mp heq
  · injection hstart with hstart
    subst hstart
    simp [Event.IsContent, Event.isWord] at he
  · obtain ⟨rfl, -, -⟩ | ⟨after'', rfl, rfl⟩ := snoc_eq_append_cons_iff.mp heq'
    · exact ⟨e, a, [], rfl, he⟩
    · obtain ⟨e', a', rest, rfl, he'⟩ := h before after'' rfl
      exact ⟨e', a', rest ++ [.told .programStart .accept] ++ [.told e a], by simp, he'⟩

end

/-! ### What the reader remembers -/

/-- What a reader knows of a session. -/
structure Tracked (r : Reader) (entries : List Entry) : Prop where
  /-- The builder has been told what it may be told. -/
  orderly : Orderly entries
  /-- The reader knows whether a program is running. -/
  running : r.programStarted = true ↔ Running entries
  /-- The reader has stopped with the builder's code if the builder has refused something. -/
  refused : ∀ k, (∃ f, r.mode = .failed f ∧ f.cause = .builder k) ↔ Refused k entries

/-- What holds of a session when the reader has dealt with a byte. -/
structure Kept (r : Reader) (entries : List Entry) : Prop extends Tracked r entries where
  /-- No program has been started without anything in it. -/
  starts : StartsWithContent entries

/-- The reader knows whether the block has content, and content is only in a program. -/
def KnowsContent (r : Reader) (entries : List Entry) : Prop :=
  (r.hasContent = true ↔ InBlock Event.IsContent entries) ∧ (r.hasContent = true → r.programStarted = true)

/-- What the reader's mode tells of the block. -/
def Phase (r : Reader) (entries : List Entry) : Prop :=
  match r.mode with
  | .gap place | .comment place =>
    KnowsContent r entries ∧ (place = .blockStart → ¬ InBlock (·.isWord) entries)
  | .lineComment | .checksumStart | .checksum => KnowsContent r entries
  -- The word counts as content from its first byte on, before the builder is told of it.
  | .address w | .value w _ =>
    r.hasContent = true ∧ (Word.isSequence w.address = true → ¬ InBlock (·.isWord) entries)
  | .programMarker | .skipLine | .failed _ => True

/-- What holds of a session when the reader is ready for the next byte. -/
structure InStep (r : Reader) (entries : List Entry) : Prop extends Kept r entries where
  /-- A reader that has not stopped is in a block. -/
  not_ended : r.failed = false → ¬ BlockEnded entries
  /-- The reader is as far in the block as its mode tells. -/
  phase : Phase r entries

section

variable {entries : List Entry} {e : Event} {r' : Reader}

theorem not_builder_of_not_failed (hr : r.failed = false) (k : Int) :
    ¬ ∃ f, r.mode = .failed f ∧ f.cause = .builder k := by
  rintro ⟨f, hm, -⟩
  rw [failed_of_mode hm] at hr
  simp [Mode.fault?] at hr

theorem Tracked.not_refused (h : Tracked r entries) (hr : r.failed = false) (k : Int) : ¬ Refused k entries :=
  fun hk => not_builder_of_not_failed hr k ((h.refused k).mpr hk)

theorem Kept.of_not_failed (h : Kept r entries) (hr : r.failed = false) (hr' : r'.failed = false)
    (hp : r'.programStarted = r.programStarted) : Kept r' entries where
  orderly := h.orderly
  running := by rw [hp, h.running]
  refused k := iff_of_false (not_builder_of_not_failed hr' k) (h.toTracked.not_refused hr k)
  starts := h.starts

/-- A reader that stops for a reason of its own. -/
theorem Kept.of_fault {f : Fault} (h : Kept r entries) (hr : r.failed = false) (hm : r'.mode = .failed f)
    (hp : r'.programStarted = r.programStarted) (hf : ∀ k, f.cause ≠ .builder k) : Kept r' entries where
  orderly := h.orderly
  running := by rw [hp, h.running]
  refused k := by
    refine iff_of_false ?_ (h.toTracked.not_refused hr k)
    rintro ⟨f', hm', hf'⟩
    rw [hm, Mode.failed.injEq] at hm'
    subst hm'
    exact hf k hf'
  starts := h.starts

/-- Of a reader that has stopped no more is asked. -/
theorem Kept.inStep_of_failed (h : Kept r entries) (hr : r.failed = true) : InStep r entries where
  toKept := h
  not_ended hf := by rw [hr] at hf; contradiction
  phase := by
    obtain ⟨f, hm⟩ := failed_iff.mp hr
    rw [Phase, hm]
    trivial

theorem InStep.of_fault {f : Fault} (h : InStep r entries) (hr : r.failed = false) (hm : r'.mode = .failed f)
    (hp : r'.programStarted = r.programStarted) (hf : ∀ k, f.cause ≠ .builder k) : InStep r' entries :=
  (h.toKept.of_fault hr hm hp hf).inStep_of_failed (failed_of_mode hm)

/-- A reader that tells nothing and goes on. -/
theorem InStep.of_not_failed (h : InStep r entries) (hr : r.failed = false) (hr' : r'.failed = false)
    (hp : r'.programStarted = r.programStarted) (hphase : Phase r' entries) : InStep r' entries where
  toKept := h.toKept.of_not_failed hr hr' hp
  not_ended _ := h.not_ended hr
  phase := hphase

end

/-! ### Telling the builder -/

section

variable {entries : List Entry} {e : Event}

/-- The builder answers, and the answer is noted. -/
theorem exists_record_eq (b : Builder σ) (e : Event) (s : σ) (entries : List Entry) :
    ∃ a s', record Entry.told b e (s, entries) = (a, s', entries ++ [.told e a]) := ⟨_, _, rfl⟩

theorem Tracked.accept (h : Tracked r entries) (hr : r.failed = false) (hp : Permitted e entries)
    (he : e ≠ .programStart) : Tracked r (entries ++ [.told e .accept]) where
  orderly := h.orderly.snoc (by rintro _ _ ⟨⟩; exact hp)
  running := by simp [he, h.running]
  refused k := by
    refine iff_of_false (not_builder_of_not_failed hr k) ?_
    simp [h.not_refused hr k]

theorem Tracked.refuse (h : Tracked r entries) (hr : r.failed = false) (hp : Permitted e entries) (k : Int)
    (c : UInt8) : Tracked (r.fail (.builder k) c) (entries ++ [.told e (.refuse k)]) where
  orderly := h.orderly.snoc (by rintro _ _ ⟨⟩; exact hp)
  running := by
    have hrun : (r.fail (.builder k) c).programStarted = r.programStarted := rfl
    simp [hrun, h.running]
  refused k' := by
    simp [Reader.fail, h.not_refused hr k']

/-- The start of a program, accepted. -/
theorem Tracked.start (h : Tracked r entries) (hr : r.failed = false) (hp : Permitted .programStart entries) :
    Tracked { r with programStarted := true } (entries ++ [.told .programStart .accept]) where
  orderly := h.orderly.snoc (by rintro _ _ ⟨⟩; exact hp)
  running := by simp
  refused k := by
    refine iff_of_false (not_builder_of_not_failed hr k) ?_
    simp [h.not_refused hr k]

/-- The builder is told of a permitted event: it is noted, and the reader stops or stays as it is. -/
theorem Tracked.tell (h : Tracked r entries) (hr : r.failed = false) (hp : Permitted e entries)
    (he : e ≠ .programStart) (c : UInt8) (s : σ) {y : Reader × σ × List Entry}
    (hy : r.tell (record .told b) e c (s, entries) = y) :
    Tracked y.1 y.2.2 ∧ (∃ a, y.2.2 = entries ++ [.told e a]) ∧ (y.1.failed = true ∨ y.1 = r) := by
  obtain ⟨a, s', hb⟩ := exists_record_eq b e s entries
  rw [Reader.tell, hb] at hy
  subst hy
  cases a with
  | accept => exact ⟨h.accept hr hp he, ⟨_, rfl⟩, Or.inr rfl⟩
  | refuse k => exact ⟨h.refuse hr hp k c, ⟨_, rfl⟩, Or.inl rfl⟩

theorem Event.IsContent.ne_programStart (he : e.IsContent) : e ≠ .programStart := by
  rintro rfl
  simp [Event.IsContent, Event.isWord] at he

theorem Event.IsContent.ne_endBlock (he : e.IsContent) : e ≠ .endBlock := by
  rintro rfl
  simp [Event.IsContent, Event.isWord] at he

theorem Tracked.permitted_start (h : Tracked r entries) (hr : r.failed = false) (hp : r.programStarted = false)
    (hb : ¬ BlockEnded entries) : Permitted .programStart entries where
  running := by simp [← h.running, hp]
  blockDelete := by simp
  sequenceNumber := by simp
  endBlock := by simp
  not_ended := hb
  not_refused := h.not_refused hr

theorem Tracked.permitted_endBlock (h : Tracked r entries) (hr : r.failed = false) (hp : r.programStarted = true)
    (hb : ¬ BlockEnded entries) (hc : InBlock Event.IsContent entries) : Permitted .endBlock entries where
  running := iff_of_true (h.running.mp hp) (by simp)
  blockDelete := by simp
  sequenceNumber := by simp
  endBlock _ := hc
  not_ended := hb
  not_refused := h.not_refused hr

theorem Tracked.permitted_content (h : Tracked r entries) (hr : r.failed = false) (hp : r.programStarted = true)
    (hb : ¬ BlockEnded entries) (he : e.IsContent) (hd : e = .blockDelete → ¬ InBlock Event.IsContent entries)
    (hs : ∀ alignment number, e = .sequenceNumber alignment number → ¬ InBlock (·.isWord) entries) :
    Permitted e entries where
  running := iff_of_true (h.running.mp hp) he.ne_programStart
  blockDelete := hd
  sequenceNumber := hs
  endBlock hend := absurd hend he.ne_endBlock
  not_ended := hb
  not_refused := h.not_refused hr

/-- What comes of telling the builder of content, with the start of a program before it if need be:
the reader stops, or the program is running and the block has content. -/
structure Announced (e : Event) (r : Reader) (entries : List Entry) (y : Reader × σ × List Entry) : Prop where
  /-- The order is kept. -/
  kept : Kept y.1 y.2.2
  /-- A reader that has not stopped is where it was, in a program. -/
  reader : y.1.failed = false → y.1 = { r with programStarted := true }
  /-- The block has content. -/
  content : y.1.failed = false → InBlock Event.IsContent y.2.2
  /-- The block has only the words that it had, and this one. -/
  words : y.1.failed = false → InBlock (·.isWord) y.2.2 → e.isWord = true ∨ InBlock (·.isWord) entries
  /-- The block goes on. -/
  not_ended : y.1.failed = false → ¬ BlockEnded y.2.2

/-- The builder is told of content, and that a program is running is known. -/
theorem announced_tell {r₁ : Reader} {entries₁ : List Entry} (h : Tracked r₁ entries₁)
    (hr : r₁.failed = false) (hr₁ : r₁ = { r with programStarted := true }) (he : e.IsContent)
    (hp : Permitted e entries₁) (hstarts : ∀ a, StartsWithContent (entries₁ ++ [.told e a]))
    (hwords : InBlock (·.isWord) entries₁ → InBlock (·.isWord) entries) (c : UInt8) (s : σ) :
    Announced e r entries (r₁.tell (record .told b) e c (s, entries₁)) := by
  obtain ⟨htracked, ⟨a, ha⟩, hreader⟩ := h.tell (b := b) hr hp he.ne_programStart c s rfl
  refine ⟨⟨htracked, ?_⟩, fun hf => ?_, fun _ => ?_, fun _ hw => ?_, fun _ => ?_⟩
  · rw [ha]
    exact hstarts a
  · rw [← hr₁]
    exact hreader.resolve_left (by simp [hf])
  · rw [ha]
    simp [he]
  · rw [ha] at hw
    obtain ⟨e', a', heq, he'⟩ | ⟨-, hw⟩ := inBlock_snoc.mp hw
    · rw [Entry.told.injEq] at heq
      exact Or.inl (heq.1 ▸ he')
    · exact Or.inr (hwords hw)
  · rw [ha]
    simp [he.ne_endBlock, hp.not_ended]

/-- The start of a program is no part of a block. -/
theorem inBlock_start {p : Event → Prop} {a : Answer} (hp : ¬ p .programStart) :
    InBlock p (entries ++ [.told .programStart a]) ↔ InBlock p entries := by
  simp [hp]

/-- Content is told in order, if the block is such that it may be told. -/
theorem Kept.announce (h : Kept r entries) (hr : r.failed = false) (hb : ¬ BlockEnded entries) (he : e.IsContent)
    (hd : e = .blockDelete → ¬ InBlock Event.IsContent entries)
    (hs : ∀ alignment number, e = .sequenceNumber alignment number → ¬ InBlock (·.isWord) entries)
    (c : UInt8) (s : σ) : Announced e r entries (r.announce (record .told b) e c (s, entries)) := by
  cases hp : r.programStarted with
  | true =>
    rw [announce_of_started hr hp]
    have hr₁ : r = { r with programStarted := true } := by rw [← hp]
    exact announced_tell h.toTracked hr hr₁ he (h.permitted_content hr hp hb he hd hs)
      (fun a => h.starts.snoc (by simp [he.ne_programStart])) id c s
  | false =>
    have hstart := h.permitted_start hr hp hb
    obtain ⟨a, s', ha⟩ := exists_record_eq b .programStart s entries
    cases a with
    | refuse k =>
      rw [announce_of_refuse hp ha]
      refine ⟨⟨h.refuse hr hstart k c, h.starts.snoc (by simp)⟩, ?_, ?_, ?_, ?_⟩ <;> exact nofun
    | accept =>
      rw [announce_of_accept hr hp ha]
      have h₁ := h.start hr hstart
      have hwords : InBlock (·.isWord) (entries ++ [.told .programStart .accept]) ↔ InBlock (·.isWord) entries :=
        inBlock_start (by simp [Event.isWord])
      have hcontent : InBlock Event.IsContent (entries ++ [.told .programStart .accept]) ↔
          InBlock Event.IsContent entries :=
        inBlock_start (fun he => he.ne_programStart rfl)
      exact announced_tell h₁ hr rfl he
        (h₁.permitted_content hr rfl (by simp [hb]) he (fun heq => hcontent.not.mpr (hd heq))
          (fun alignment number heq => hwords.not.mpr (hs alignment number heq)))
        (fun a => h.starts.start he) hwords.mp c s'

/-- The end of a block is told in order. -/
theorem Kept.endBlock (h : Kept r entries) (hr : r.failed = false) (hb : ¬ BlockEnded entries)
    (hk : KnowsContent r entries) (c : UInt8) (s : σ) :
    Kept (r.endBlock rules (record .told b) c (s, entries)).1
      (r.endBlock rules (record .told b) c (s, entries)).2.2 := by
  rw [Reader.endBlock]
  split_ifs with hw hc
  · exact h.of_fault hr rfl rfl (by simp)
  · have hp := hk.2 hc
    have hpermitted := h.permitted_endBlock hr hp hb (hk.1.mp hc)
    obtain ⟨htracked, ⟨a, ha⟩, -⟩ := h.tell (b := b) hr hpermitted (by simp) c s rfl
    rw [announce_of_started hr hp]
    have hkept : Kept (r.tell (record .told b) .endBlock c (s, entries)).1
        (r.tell (record .told b) .endBlock c (s, entries)).2.2 :=
      ⟨htracked, ha ▸ h.starts.snoc (by simp)⟩
    simp only
    split_ifs with hf
    · exact hkept
    · exact hkept.of_not_failed (by simpa using hf) rfl rfl
  · exact h.of_not_failed hr rfl rfl

end

/-! ### One byte -/

section

variable {entries : List Entry} {place : Place}

theorem InStep.phase_gap (h : InStep r entries) (hm : r.mode = .gap place) :
    KnowsContent r entries ∧ (place = .blockStart → ¬ InBlock (·.isWord) entries) := by
  have hphase := h.phase
  rwa [Phase, hm] at hphase

theorem InStep.startWord (h : InStep r entries) (hm : r.mode = .gap place) (c : UInt8) :
    InStep (r.startWord rules place c) entries := by
  have hr : r.failed = false := failed_of_mode hm
  rw [Reader.startWord]
  split
  · exact h.of_fault hr rfl rfl (by simp)
  · next letter _ =>
    split_ifs with hseq
    · exact h.of_fault hr rfl rfl (by simp)
    · refine h.of_not_failed hr rfl rfl ⟨rfl, fun hletter => (h.phase_gap hm).2 ?_⟩
      simpa [hletter] using hseq

/-- The mark of a block, before all else in it. -/
theorem InStep.blockDelete (h : InStep r entries) (hm : r.mode = .blockStart) (hc : r.hasContent = false) (c : UInt8)
    (s : σ) {y : Reader × σ × List Entry}
    (hy : ({ r with hasContent := true } : Reader).announce (record .told b) .blockDelete c (s, entries) = y) :
    InStep y.1 y.2.2 := by
  have hr : r.failed = false := failed_of_mode hm
  obtain ⟨hknows, hword⟩ := h.phase_gap hm
  have hempty : ¬ InBlock Event.IsContent entries := by
    rw [← hknows.1, hc]
    simp
  have hkept : Kept { r with hasContent := true } entries := h.toKept.of_not_failed hr hr rfl
  have hann : Announced .blockDelete { r with hasContent := true } entries y :=
    hy ▸ hkept.announce hr (h.not_ended hr) (Or.inl rfl) (fun _ => hempty) nofun c s
  cases hf : y.1.failed with
  | true => exact hann.kept.inStep_of_failed hf
  | false =>
    refine ⟨hann.kept, fun _ => hann.not_ended hf, ?_⟩
    rw [hann.reader hf, Phase, hm]
    refine ⟨⟨iff_of_true rfl (hann.content hf), fun _ => rfl⟩, fun hplace hw => ?_⟩
    obtain hw | hw := hann.words hf hw
    · simp [Event.isWord] at hw
    · exact hword hplace hw

/-- Between the parts of a block, a byte that ends neither the line nor the program. -/
theorem InStep.atGap (h : InStep r entries) (hm : r.mode = .gap place) (hlf : c ≠ Byte.lf)
    (hmark : ¬ (c = Byte.percent ∧ place = .blockStart ∧ ¬ r.hasContent)) (s : σ) :
    InStep (r.atGap rules (record .told b) place c (s, entries)).1
      (r.atGap rules (record .told b) place c (s, entries)).2.2 := by
  have hr : r.failed = false := failed_of_mode hm
  have hphase := h.phase_gap hm
  apply atGap_cases (fun x : Reader × σ × List Entry => InStep x.1 x.2.2)
  case blank => exact h
  case lineEnd => exact fun hc => absurd hc hlf
  case comment => exact h.of_not_failed hr rfl rfl hphase
  case lineComment => exact h.of_not_failed hr rfl rfl hphase.1
  case checksum => exact h.of_not_failed hr rfl rfl hphase.1
  case delete =>
    rintro ⟨rfl, hc⟩
    exact h.blockDelete hm (by simpa using hc) c s rfl
  case marker => exact fun hc hstart => absurd ⟨hc, hstart⟩ hmark
  case word => exact h.startWord hm c
  case invalid => exact h.of_fault hr rfl rfl (by simp)

theorem isWord_event (w : Word) (d : Decimal) : (w.event d).isWord = true := by
  rw [Word.event]
  split_ifs <;> rfl

theorem isSequence_of_event {w : Word} {d n : Decimal} {alignment : Bool}
    (h : w.event d = .sequenceNumber alignment n) : Word.isSequence w.address = true := by
  by_contra hseq
  rw [Word.event, if_neg hseq] at h
  split_ifs at h

theorem InStep.phase_value {w : Word} {l : Literal} (h : InStep r entries) (hm : r.mode = .value w l) :
    r.hasContent = true ∧ (Word.isSequence w.address = true → ¬ InBlock (·.isWord) entries) := by
  have hphase := h.phase
  rwa [Phase, hm] at hphase

/-- A word is told in order, and after it the reader is between words. -/
theorem InStep.word {w : Word} {l : Literal} (h : InStep r entries) (hm : r.mode = .value w l) (d : Decimal)
    (c : UInt8) (s : σ) {y : Reader × σ × List Entry}
    (hy : r.announce (record .told b) (w.event d) c (s, entries) = y) :
    Kept y.1 y.2.2 ∧ (y.1.failed = false → InStep { y.1 with mode := .gap .betweenWords } y.2.2) := by
  have hr : r.failed = false := failed_of_mode hm
  obtain ⟨hcontent, hseq⟩ := h.phase_value hm
  have hdelete : w.event d = .blockDelete → ¬ InBlock Event.IsContent entries := by
    intro heq
    have hword := isWord_event w d
    rw [heq] at hword
    contradiction
  have hann : Announced (w.event d) r entries y :=
    hy ▸ h.toKept.announce hr (h.not_ended hr) (Or.inr (isWord_event w d)) hdelete
      (fun _ _ heq => hseq (isSequence_of_event heq)) c s
  refine ⟨hann.kept, fun hf => ⟨hann.kept.of_not_failed hf rfl rfl, fun _ => hann.not_ended hf, ?_⟩⟩
  rw [hann.reader hf, Phase]
  exact ⟨⟨iff_of_true hcontent (hann.content hf), fun _ => rfl⟩, nofun⟩

/-- In a number, a byte that does not end the line. -/
theorem InStep.process_value {w : Word} {l : Literal} (h : InStep r entries) (hm : r.mode = .value w l)
    (hlf : c ≠ Byte.lf) (s : σ) :
    InStep (r.process rules (record .told b) c (s, entries)).1
      (r.process rules (record .told b) c (s, entries)).2.2 := by
  have hr : r.failed = false := failed_of_mode hm
  have hphase := h.phase_value hm
  cases hc : isLiteralByte c with
  | true =>
    cases hl : l.step rules.arithmetic c with
    | ok l' =>
      rw [process_value_literal hm hc hl]
      exact h.of_not_failed hr rfl rfl hphase
    | error e =>
      rw [process_value_error hm hc hl]
      exact h.of_fault hr rfl rfl (by simp)
  | false =>
    by_cases hq : c = Byte.equals
    · rw [process_value_equals hm hq, endIndex_eq]
      split_ifs
      · exact h.of_not_failed hr rfl rfl hphase
      · exact h.of_fault hr rfl rfl (by simp)
    · cases hl : l.finish with
      | error e =>
        rw [process_value_incomplete hm hc hq hl]
        exact h.of_fault hr rfl rfl (by simp)
      | ok d =>
        obtain ⟨hkept, hgap⟩ := h.word (b := b) hm d c s rfl
        rw [process_value_end hm hc hq hl]
        split_ifs with hf
        · exact hkept.inStep_of_failed hf
        · exact (hgap (by simpa using hf)).atGap rfl hlf (by simp) _

/-- A byte that ends neither the line nor the program. -/
theorem InStep.process (h : InStep r entries) (hr : r.failed = false) (hlf : c ≠ Byte.lf)
    (hmark : ¬ (c = Byte.percent ∧ r.mode = .blockStart ∧ ¬ r.hasContent)) (s : σ) :
    InStep (r.process rules (record .told b) c (s, entries)).1
      (r.process rules (record .told b) c (s, entries)).2.2 := by
  have hphase := h.phase
  cases hm : r.mode with
  | gap place =>
    rw [process_gap hm]
    refine h.atGap hm hlf ?_ s
    rintro ⟨hc, rfl, hcontent⟩
    exact hmark ⟨hc, hm, hcontent⟩
  | address w =>
    rw [Phase, hm] at hphase
    by_cases hb : c = Byte.space ∨ c = Byte.tab
    · rw [process_address_blank hm hb]
      exact h
    · cases hc : isLiteralByte c with
      | true =>
        have hvalue : InStep { r with mode := .value w {} } entries := h.of_not_failed hr rfl rfl hphase
        rw [process_address_literal hm hc]
        exact hvalue.process_value rfl hlf s
      | false =>
        rw [process_address_other hm hb hc]
        exact h.of_fault hr rfl rfl (by simp)
  | value w l => exact h.process_value hm hlf s
  | comment place =>
    rw [Phase, hm] at hphase
    by_cases hc : c = Byte.closeParen
    · rw [process_comment_close hm hc]
      exact h.of_not_failed hr rfl rfl hphase
    · rw [process_comment_other hm hc hlf]
      exact h
  | lineComment =>
    rw [process_lineComment_other hm hlf]
    exact h
  | checksumStart =>
    rw [Phase, hm] at hphase
    cases hc : Byte.isDigit c with
    | true =>
      rw [process_checksumStart_digit hm hc]
      exact h.of_not_failed hr rfl rfl hphase
    | false =>
      rw [process_checksumStart_other hm hc]
      exact h.of_fault hr rfl rfl (by simp)
  | checksum =>
    rw [Phase, hm] at hphase
    cases hc : Byte.isDigit c with
    | true =>
      rw [process_checksum_digit hm hc]
      refine h.of_not_failed hr hr rfl ?_
      rw [Phase, hm]
      exact hphase
    | false =>
      have hgap : InStep { r with mode := .gap .afterChecksum } entries :=
        h.of_not_failed hr rfl rfl ⟨hphase, nofun⟩
      rw [process_checksum_end hm hc]
      exact hgap.atGap rfl hlf (by simp) s
  | programMarker =>
    rw [process_passed_other (Or.inl hm) hlf]
    exact h
  | skipLine =>
    rw [process_passed_other (Or.inr hm) hlf]
    exact h
  | failed f =>
    rw [process_failed hm]
    exact h

/-- The line end keeps the order, with the end of the block or without. -/
theorem InStep.process_lf (h : InStep r entries) (hr : r.failed = false) (s : σ) :
    Kept (r.process rules (record .told b) Byte.lf (s, entries)).1
      (r.process rules (record .told b) Byte.lf (s, entries)).2.2 := by
  have hphase := h.phase
  have hended := h.not_ended hr
  cases hm : r.mode with
  | gap place =>
    rw [process_gap hm, atGap_lf]
    exact h.toKept.endBlock hr hended (h.phase_gap hm).1 Byte.lf s
  | address w =>
    rw [process_address_lf hm]
    exact h.toKept.of_fault hr rfl rfl (by simp)
  | value w l =>
    cases hl : l.finish with
    | error e =>
      rw [process_value_lf_incomplete hm hl]
      exact h.toKept.of_fault hr rfl rfl (by simp)
    | ok d =>
      obtain ⟨hkept, hgap⟩ := h.word (b := b) hm d Byte.lf s rfl
      rw [process_value_lf hm hl]
      split_ifs with hf
      · exact hkept
      · have hgap := hgap (by simpa using hf)
        exact hgap.toKept.endBlock rfl (hgap.not_ended rfl) (hgap.phase_gap rfl).1 Byte.lf _
  | comment place =>
    rw [process_comment_lf hm]
    exact h.toKept.of_fault hr rfl rfl (by simp)
  | lineComment =>
    rw [Phase, hm] at hphase
    rw [process_lineComment_lf hm]
    exact h.toKept.endBlock hr hended hphase Byte.lf s
  | checksumStart =>
    rw [process_checksumStart_lf hm]
    exact h.toKept.of_fault hr rfl rfl (by simp)
  | checksum =>
    rw [Phase, hm] at hphase
    have hkept : Kept { r with mode := .gap .afterChecksum } entries := h.toKept.of_not_failed hr rfl rfl
    rw [process_checksum_lf hm]
    exact hkept.endBlock rfl hended hphase Byte.lf s
  | programMarker =>
    rw [process_passed_lf (Or.inl hm)]
    exact h.toKept.of_not_failed hr rfl rfl
  | skipLine =>
    rw [process_passed_lf (Or.inr hm)]
    exact h.toKept.of_not_failed hr rfl rfl
  | failed f =>
    rw [process_failed hm]
    exact h.toKept

end

/-! ### Sessions keep to the order -/

section

variable {entries : List Entry} {r' : Reader} {z : Entry}

/-- Something else than an event is noted. -/
theorem Kept.snoc (h : Kept r entries) (hz : ∀ e a, z ≠ .told e a)
    (hrun : r'.programStarted = true ↔ Running (entries ++ [z]))
    (href : ∀ k, (∃ f, r'.mode = .failed f ∧ f.cause = .builder k) ↔ Refused k (entries ++ [z])) :
    Kept r' (entries ++ [z]) where
  orderly := h.orderly.snoc (fun e a heq => absurd heq (hz e a))
  running := hrun
  refused := href
  starts := h.starts.snoc (hz _ _)

/-- A reader at the start of a block, or in a line that is passed over, when nothing of a block has
been told. -/
theorem Kept.inStep_of_empty (h : Kept r entries) (hm : r.mode = .blockStart ∨ r.mode = .skipLine)
    (hc : r.hasContent = false) (hin : ∀ p, ¬ InBlock p entries) (hended : ¬ BlockEnded entries) :
    InStep r entries where
  toKept := h
  not_ended _ := hended
  phase := by
    obtain hm | hm := hm
    · rw [Phase, hm]
      exact ⟨⟨iff_of_false (by simp [hc]) (hin _), by simp [hc]⟩, fun _ => hin _⟩
    · rw [Phase, hm]
      trivial

theorem inStep_nil : InStep {} [] :=
  Kept.inStep_of_empty
    { orderly := orderly_nil
      running := iff_of_false (by simp) (not_since_nil _ _)
      refused := fun k => iff_of_false (not_builder_of_not_failed rfl k) (not_since_nil _ _)
      starts := startsWithContent_nil }
    (Or.inl rfl) rfl (fun _ => not_since_nil _ _) (not_since_nil _ _)

/-- A call by itself changes nothing, unless it lets the reader go on. -/
theorem InStep.called (h : InStep r entries) {call : Call} (h1 : call ≠ .skipBlock) (h2 : call ≠ .reset) :
    InStep r (entries ++ [.called call]) where
  toKept := h.toKept.snoc (by simp) (by simp [h2, h.running]) (by simp [h1, h2, h.refused])
  not_ended hr := by simp [h.not_ended hr]
  phase := by
    have hin : ∀ p, InBlock p (entries ++ [.called call]) ↔ InBlock p entries := by simp [h1, h2]
    have hphase := h.phase
    rw [Phase] at hphase ⊢
    simp only [KnowsContent, hin] at hphase ⊢
    exact hphase

theorem InStep.skipBlock (h : InStep r entries) : InStep r.skipBlock (entries ++ [.called .skipBlock]) := by
  have hr : r.skipBlock.failed = false := by
    rw [Reader.skipBlock]
    split <;> rfl
  have hm : r.skipBlock.mode = .blockStart ∨ r.skipBlock.mode = .skipLine := by
    rw [Reader.skipBlock]
    split
    · exact Or.inl rfl
    · exact Or.inr rfl
  have hp : r.skipBlock.programStarted = r.programStarted := rfl
  have hkept : Kept r.skipBlock (entries ++ [.called .skipBlock]) :=
    h.toKept.snoc (by simp) (by simp [hp, h.running])
      (fun k => iff_of_false (not_builder_of_not_failed hr k) (by simp))
  exact hkept.inStep_of_empty hm rfl (by simp) (by simp)

theorem InStep.reset (h : InStep r entries) : InStep r.reset (entries ++ [.called .reset]) := by
  have hkept : Kept r.reset (entries ++ [.called .reset]) :=
    h.toKept.snoc (by simp) (by simp [Reader.reset])
      (fun k => iff_of_false (not_builder_of_not_failed rfl k) (by simp))
  exact hkept.inStep_of_empty (Or.inl rfl) rfl (by simp) (by simp)

/-- A line end, after which the reader has stopped or is at the start of a block. -/
theorem Kept.lineEnd (h : Kept r entries) (hr : r.failed = true ∨ ∃ r₀ : Reader, r = r₀.resetBlock) :
    InStep r (entries ++ [.lineEnd]) := by
  have hkept : Kept r (entries ++ [.lineEnd]) := h.snoc (by simp) (by simp [h.running]) (by simp [h.refused])
  obtain hr | ⟨r₀, rfl⟩ := hr
  · exact hkept.inStep_of_failed hr
  · exact hkept.inStep_of_empty (Or.inl rfl) rfl (by simp) (by simp)

/-- A `%` that ends a program. -/
theorem InStep.marker (h : InStep r entries) (hr : r.failed = false) :
    InStep { r with mode := .programMarker, programStarted := false } (entries ++ [.marker]) where
  toKept := h.toKept.snoc (by simp) (by simp)
    (fun k => iff_of_false (not_builder_of_not_failed rfl k) (by simp [h.toTracked.not_refused hr k]))
  not_ended _ := by simp [h.not_ended hr]
  phase := trivial

theorem InStep.noteByte (h : InStep r entries) (c : UInt8) (s : σ) :
    InStep (noteByte rules b c r (s, entries)).1 (noteByte rules b c r (s, entries)).2.2 := by
  rw [Block.noteByte]
  cases hr : r.failed with
  | true =>
    rw [feed_of_failed hr, marks, if_pos hr]
    simpa using h
  | false =>
    have hadv : InStep (r.advance c) entries := h.of_not_failed hr hr rfl h.phase
    rw [feed_of_not_failed hr, marks, if_neg (by simp [hr])]
    -- A line end and a `%` that ends a program are noted after what they do, so the order is kept only then.
    split_ifs with hlf hmark
    · subst hlf
      exact (hadv.process_lf hr s).lineEnd (process_lf_failed_or_reset rules _ _ _)
    · obtain ⟨rfl, hm, hc⟩ := hmark
      have hmarker : (r.advance Byte.percent).process rules (record Entry.told b) Byte.percent (s, entries) =
          ({ r.advance Byte.percent with mode := .programMarker, programStarted := false }, s, entries) := by
        rw [process_advance_gap hm, atGap_percent (by simp), if_pos ⟨rfl, hc⟩]
      rw [hmarker]
      exact hadv.marker hr
    · simpa using hadv.process hr hlf hmark s

theorem InStep.noteText (t : Bytes) : ∀ {r : Reader} {entries : List Entry}, InStep r entries → ∀ s : σ,
    InStep (noteText rules b t r (s, entries)).1 (noteText rules b t r (s, entries)).2.2 := by
  induction t with
  | nil => intro r entries h s; exact h
  | cons c t ih =>
    intro r entries h s
    rw [Block.noteText]
    simp only
    split_ifs
    · exact h.noteByte c s
    · exact ih (h.noteByte c s) _

theorem InStep.note (h : InStep r entries) (call : Call) (s : σ) :
    InStep (note rules b call r (s, entries)).1 (note rules b call r (s, entries)).2.2 := by
  cases call with
  | byte c => exact (h.called (by simp) (by simp)).noteByte c s
  | text t => exact InStep.noteText t (h.called (by simp) (by simp)) s
  | finish =>
    have hcalled : InStep r (entries ++ [.called .finish]) := h.called (by simp) (by simp)
    simp only [Block.note]
    split_ifs
    · exact hcalled
    · exact hcalled
    · exact hcalled.noteByte Byte.lf s
  | skipBlock => exact h.skipBlock
  | reset => exact h.reset

/-- At the end of every session. -/
theorem inStep_session (rules : Rules) (b : Builder σ) (calls : List Call) (s : σ) :
    InStep (session rules b calls s).1 (session rules b calls s).2.2 := by
  induction calls using List.reverseRecOn with
  | nil => exact inStep_nil
  | append_singleton calls call ih =>
    rw [session, List.foldl_append]
    exact ih.note call _

end

/-- The builder's code is in the report of a reader that a refusal has stopped, and in no other. -/
theorem report_builder_iff (r : Reader) (k : Int) :
    (r.report.kind = (Cause.builder k).code ∧ r.report.builder = k) ↔
      ∃ f, r.mode = .failed f ∧ f.cause = .builder k := by
  rw [Reader.report, Reader.fault?]
  cases r.mode with
  | failed f =>
    obtain ⟨cause, address, character, line, column⟩ := f
    cases cause <;> simp [Mode.fault?, Fault.report, Cause.code, Cause.builderCode]
  | _ => simp [Mode.fault?, Cause.code]

/-- **The order in which a builder is called.** Whatever is called on a new reader, and whatever the
builder answers: it is told of each event only when that is permitted; a program that it lets start
has at once something in it; and the report has the builder's code from a refusal on, until the
reader is made to go on or to start over. -/
theorem session_orderly (rules : Rules) (b : Builder σ) (calls : List Call) (s : σ) :
    Orderly (session rules b calls s).2.2 ∧
      StartsWithContent (session rules b calls s).2.2 ∧
      ∀ k, ((run rules b calls s).1.report.kind = (Cause.builder k).code ∧
          (run rules b calls s).1.report.builder = k) ↔
        Refused k (session rules b calls s).2.2 := by
  have h := inStep_session rules b calls s
  refine ⟨h.orderly, h.starts, fun k => ?_⟩
  rw [← session_eq_run, report_builder_iff]
  exact h.refused k

-- The word is told at the end of the input and refused; the `%` after that ends the program.
example :
    (session {} (refusing 0x58) [.text (ascii "/G1X2"), .finish, .skipBlock, .text (ascii "%")] ()).2.2 =
      [.called (.text (ascii "/G1X2")), .told .programStart .accept, .told .blockDelete .accept,
        .told (.gCode ⟨1, 0⟩) .accept, .called .finish, .told (.data 0x58 none ⟨2, 0⟩) (.refuse 1), .lineEnd,
        .called .skipBlock, .called (.text (ascii "%")), .marker] := by decide

end PartProgram.Block
