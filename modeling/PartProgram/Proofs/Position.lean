import PartProgram.Proofs.LineReading
import PartProgram.Proofs.Resynchronization
import PartProgram.Proofs.Transition
import Mathlib.Data.List.DropRight

/-!
# Positions point into the text

The reader counts lines and columns as it goes: the line number goes up with the byte after a line
end, and the column starts again there. Here lines and columns are counted in the text
itself (`lineNumber`, `columnNumber`), and for a reader that goes on after each fault the two agree at
every byte, as long as the numbers can be counted to (`PositionsFit`).

A fault points at the byte being read, except where that byte ends a word too early: then it points at
the address of the word. For this the reader keeps the column of the address, and the invariant
has to know where in the text the word being read began (`Located.word`).
-/

namespace PartProgram.Number.Literal

variable {l : Literal} {c : UInt8} {a : Arithmetic} {e : Error}

theorem ne_incomplete_of_step (h : l.step a c = .error e) : e ≠ .incomplete := by
  obtain ⟨-, rfl⟩ | ⟨rfl, -⟩ := step_error_cases h
  · simp
  · simp

theorem eq_incomplete_of_finish (h : l.finish = .error e) : e = .incomplete := by
  rw [finish] at h
  split at h <;> cases h
  all_goals rfl

end PartProgram.Number.Literal

namespace PartProgram.Block

open Number Reader

variable {σ : Type} {rules : Rules} {b : Builder σ} {onFault : Fault → σ → σ} {c : UInt8} {r : Reader} {s : σ}
  {t u : Bytes}

/-! ### Coordinates in a text -/

/-- The line of the byte after the text, counted from one. -/
def lineNumber (t : Bytes) : Nat := t.count Byte.lf + 1

/-- The column of the byte after the text, counted from one. -/
def columnNumber (t : Bytes) : Nat := (t.rtakeWhile (· != Byte.lf)).length + 1

theorem lineNumber_append_lf (t : Bytes) : lineNumber (t ++ [Byte.lf]) = lineNumber t + 1 := by
  rw [lineNumber, lineNumber, List.count_append, List.count_singleton_self]

theorem lineNumber_append (t : Bytes) (hu : Byte.lf ∉ u) : lineNumber (t ++ u) = lineNumber t := by
  rw [lineNumber, lineNumber, List.count_append, List.count_eq_zero_of_not_mem hu, Nat.add_zero]

theorem columnNumber_append_lf (t : Bytes) : columnNumber (t ++ [Byte.lf]) = 1 := by
  rw [columnNumber, List.rtakeWhile_concat_neg _ _ _ (by simp)]
  rfl

theorem columnNumber_append_other (t : Bytes) (hc : c ≠ Byte.lf) :
    columnNumber (t ++ [c]) = columnNumber t + 1 := by
  rw [columnNumber, columnNumber, List.rtakeWhile_concat_pos _ _ _ (by simpa using hc), List.length_append,
    List.length_singleton]

/-- All lines and columns of the text, and those of a byte after it, can be counted to: fewer lines than the
greatest number, and fewer bytes in each, are enough. -/
def PositionsFit (t : Bytes) : Prop :=
  ∀ before, before <+: t → lineNumber before ≤ maxPosition ∧ columnNumber before ≤ maxPosition

theorem PositionsFit.of_append (h : PositionsFit (t ++ u)) : PositionsFit t :=
  fun _ hbefore => h _ (hbefore.trans (List.prefix_append t u))

theorem positionsFit_of_length (h : t.length < maxPosition) : PositionsFit t := by
  intro before hbefore
  have hlength : before.length ≤ t.length := hbefore.length_le
  have hcount : before.count Byte.lf ≤ before.length := List.count_le_length
  have hline : (before.rtakeWhile (· != Byte.lf)).length ≤ before.length := (List.rtakeWhile_suffix _ _).length_le
  rw [lineNumber, columnNumber]
  omega

/-! ### Faults and the text -/

/-- A byte that a word can have after its address. -/
def IsWordByte (c : UInt8) : Prop := c = Byte.space ∨ c = Byte.tab ∨ isLiteralByte c ∨ c = Byte.equals

theorem IsWordByte.ne_lf (h : IsWordByte c) : c ≠ Byte.lf := by
  rintro rfl
  rw [IsWordByte] at h
  exact absurd h (by decide)

/-- A byte that is passed over in a word is a blank before the number. -/
theorem Mode.Passes.isWordByte {m : Mode} {x : Word × Literal} (h : m.Passes c) (hw : m.word? = some x) :
    IsWordByte c := by
  cases h with
  | address hc =>
    rw [IsWordByte]
    tauto
  | _ => cases hw

/-- The text `t` ends in a word: the byte `a` is its address, the text `start` is before it and the bytes
`rest` are after it. -/
structure EndsInWord (rules : Rules) (t start : Bytes) (a : UInt8) (rest : Bytes) : Prop where
  text : t = start ++ a :: rest
  address : addressOf? rules a = some (Byte.toUpper a)
  rest : ∀ x ∈ rest, IsWordByte x

theorem EndsInWord.append {start rest : Bytes} {a : UInt8} (h : EndsInWord rules t start a rest) (hc : IsWordByte c) :
    EndsInWord rules (t ++ [c]) start a (rest ++ [c]) where
  text := by rw [h.text, List.append_assoc, List.cons_append]
  address := h.address
  rest := by
    intro x hx
    obtain hx | hx := List.mem_append.mp hx
    · exact h.rest x hx
    · rw [List.mem_singleton.mp hx]
      exact hc

/-- A word is in one line. -/
theorem EndsInWord.lineNumber {start rest : Bytes} {a : UInt8} (h : EndsInWord rules t start a rest) :
    lineNumber t = lineNumber start := by
  rw [h.text]
  refine lineNumber_append start ?_
  rw [List.mem_cons, not_or]
  constructor
  · rintro rfl
    exact absurd (not_mem_gapBytes h.address) (by decide)
  · exact fun hlf => (h.rest _ hlf).ne_lf rfl

theorem eq_toUpper_of_addressOf? {letter : UInt8} (h : addressOf? rules c = some letter) :
    letter = Byte.toUpper c := by
  rw [addressOf?] at h
  split_ifs at h
  simp only at h
  split_ifs at h
  exact (Option.some.inj h).symm

/-- The fault is found at the byte `c` after the text `t`, and it points at this byte or into the text. -/
inductive Fault.PointsInto (rules : Rules) (t : Bytes) (c : UInt8) (f : Fault) : Prop where
  /-- It points at the address of a word, which the byte ends too early. -/
  | word {start rest : Bytes} {a : UInt8} (cause : f.cause = .decimal .incomplete) (h : EndsInWord rules t start a rest)
      (hc : isLiteralByte c = false) (character : f.character = c) (address : f.address = some (Byte.toUpper a))
      (line : f.line = lineNumber start) (sameLine : f.line = lineNumber t) (column : f.column = columnNumber start)
  /-- It points at the byte. -/
  | byte (cause : f.cause ≠ .decimal .incomplete) (character : f.character = c) (line : f.line = lineNumber t)
      (column : f.column = columnNumber t)

/-! ### The reader and the text -/

/-- The reader, having read the text `t`, has not stopped; it will count the next byte where it is, and it
knows where the word being read began. -/
structure Located (rules : Rules) (t : Bytes) (r : Reader) : Prop where
  alive : r.failed = false
  line : ∀ c, (r.advance c).line = lineNumber t
  column : ∀ c, (r.advance c).column = columnNumber t
  word : ∀ {w : Word} {l : Literal}, r.mode.word? = some (w, l) →
    ∃ start a rest, EndsInWord rules t start a rest ∧ w.address = Byte.toUpper a ∧ w.column = columnNumber start

theorem located_new (rules : Rules) : Located rules [] {} where
  alive := rfl
  line _ := rfl
  column _ := rfl
  word h := by cases h

theorem nextPosition_of_le {n : Nat} (h : n + 1 ≤ maxPosition) : nextPosition n = n + 1 := if_pos h

theorem Located.line_after (h : Located rules t r) (ht : PositionsFit (t ++ [c])) {r' : Reader}
    (hpos : SamePosition (r.advance c) r') (d : UInt8) : (r'.advance d).line = lineNumber (t ++ [c]) := by
  rw [advance, hpos.line, hpos.atLineStart, h.line, atLineStart_advance]
  by_cases hc : c = Byte.lf
  · subst hc
    have hle := (ht _ List.prefix_rfl).1
    rw [lineNumber_append_lf] at hle ⊢
    exact nextPosition_of_le hle
  · rw [lineNumber_append t (by simpa using Ne.symm hc)]
    simp [hc, setPosition]

theorem Located.column_after (h : Located rules t r) (ht : PositionsFit (t ++ [c])) {r' : Reader}
    (hpos : SamePosition (r.advance c) r') (d : UInt8) : (r'.advance d).column = columnNumber (t ++ [c]) := by
  rw [advance, hpos.column, hpos.atLineStart, h.column, atLineStart_advance]
  by_cases hc : c = Byte.lf
  · subst hc
    rw [columnNumber_append_lf]
    rfl
  · have hle := (ht _ List.prefix_rfl).2
    rw [columnNumber_append_other t hc] at hle ⊢
    simp only [beq_iff_eq, hc, if_false]
    exact nextPosition_of_le hle

theorem samePosition_feed (rules : Rules) (b : Builder σ) (c : UInt8) (s : σ) (hr : r.failed = false) :
    SamePosition (r.advance c) (r.feed rules b c s).1 := by
  rw [feed_of_not_failed hr]
  exact samePosition_process rules b c _ s

theorem samePosition_feedAll (c : UInt8) (s : σ) (hr : r.failed = false) :
    SamePosition (r.advance c) (feedAll rules b onFault true [c] r s).1 := by
  have h := samePosition_feed rules b c s hr
  cases hf : (r.feed rules b c s).1.fault? with
  | none => rwa [feedAll_of_no_fault hf]
  | some f =>
    rw [feedAll_of_fault hf]
    exact h.trans ⟨rfl, rfl, rfl⟩

theorem Located.word_feed (h : Located rules t r) {w : Word} {l : Literal}
    (hword : (r.feed rules b c s).1.mode.word? = some (w, l)) :
    ∃ start a rest, EndsInWord rules (t ++ [c]) start a rest ∧ w.address = Byte.toUpper a ∧
      w.column = columnNumber start := by
  -- A word is being read after the byte if the byte begins one or goes on with one.
  cases change_feed rules b c s h.alive with
  | passed hpass mode _ =>
    rw [mode] at hword
    obtain ⟨start, a, rest, hends, haddress, hcolumn⟩ := h.word hword
    exact ⟨start, a, _, hends.append (hpass.isWordByte hword), haddress, hcolumn⟩
  | word _ _ hc mode _ =>
    rw [mode, Mode.word?] at hword
    cases hword
    have hletter := eq_toUpper_of_addressOf? hc
    exact ⟨t, c, [], ⟨rfl, hletter ▸ hc, by simp⟩, hletter, h.column c⟩
  | number hbefore hl mode _ =>
    rw [mode, Mode.word?] at hword
    cases hword
    obtain ⟨start, a, rest, hends, haddress, hcolumn⟩ := h.word hbefore
    exact ⟨start, a, _, hends.append (Or.inr (Or.inr (Or.inl (isLiteralByte_of_step hl)))), haddress, hcolumn⟩
  | index hbefore hc mode _ =>
    rw [mode, Mode.word?] at hword
    cases hword
    have hbefore : r.mode.word? = some _ := congrArg Mode.word? hbefore
    obtain ⟨start, a, rest, hends, haddress, hcolumn⟩ := h.word hbefore
    exact ⟨start, a, _, hends.append (Or.inr (Or.inr (Or.inr hc))), haddress, hcolumn⟩
  | _ => simp_all [Mode.word?]

/-- A byte after which the reader goes on. -/
theorem Located.feedAll (h : Located rules t r) (ht : PositionsFit (t ++ [c])) (b : Builder σ) (onFault : Fault → σ → σ)
    (s : σ) : Located rules (t ++ [c]) (feedAll rules b onFault true [c] r s).1 where
  alive := not_failed_feedAll c r s
  line := h.line_after ht (samePosition_feedAll c s h.alive)
  column := h.column_after ht (samePosition_feedAll c s h.alive)
  word := by
    intro w l hword
    cases hf : (r.feed rules b c s).1.fault? with
    | none =>
      rw [feedAll_of_no_fault hf] at hword
      exact h.word_feed hword
    | some f =>
      rw [feedAll_of_fault hf, skipBlock] at hword
      split at hword <;> cases hword

theorem located_feedAll (rules : Rules) (b : Builder σ) (onFault : Fault → σ → σ) (s : σ) (t : Bytes)
    (ht : PositionsFit t) : Located rules t (feedAll rules b onFault true t {} s).1 := by
  induction t using List.reverseRecOn with
  | nil => exact located_new rules
  | append_singleton t c ih =>
    rw [feedAll_append]
    exact (ih ht.of_append).feedAll ht b onFault _

/-- Every fault points at the byte being read, or at the address of the word that it ends too early. -/
theorem Located.fault (h : Located rules t r) {f : Fault} (hf : (r.feed rules b c s).1.fault? = some f) :
    f.PointsInto rules t c := by
  cases (change_feed rules b c s h.alive).raised h.alive hf with
  | unfit _ hl =>
    have hcause := Literal.ne_incomplete_of_step hl
    exact Fault.PointsInto.byte (by simpa using hcause) rfl (h.line c) (h.column c)
  | unfinished hbefore hc hl =>
    -- The column is the one that was kept when the word began, the line is that of the byte.
    obtain rfl := Literal.eq_incomplete_of_finish hl
    obtain ⟨start, a, rest, hends, haddress, hcolumn⟩ := h.word hbefore
    exact Fault.PointsInto.word rfl hends hc rfl (congrArg some haddress) ((h.line c).trans hends.lineNumber)
      (h.line c) hcolumn
  | stopped hstops => exact Fault.PointsInto.byte (hstops.ne_decimal _) rfl (h.line c) (h.column c)

/-! ### Positions in what can be seen -/

/-- What can be seen of reading the byte `c` after the text `t` tells where it is in the text. -/
structure Observation.PointsInto (rules : Rules) (t : Bytes) (c : UInt8) (o : Observation) : Prop where
  line : o.line = lineNumber t
  column : o.column = columnNumber t
  fault : ∀ f, o.fault = some f → f.PointsInto rules t c

theorem Located.observeByte (h : Located rules t r) (b : Builder σ) (c : UInt8) (s : σ) :
    (observeByte rules b c r s).PointsInto rules t c where
  line := ((samePosition_feed rules (record Prod.mk b) c (s, []) h.alive).line).trans (h.line c)
  column := ((samePosition_feed rules (record Prod.mk b) c (s, []) h.alive).column).trans (h.column c)
  fault _ hf := h.fault (fault_observeByte c r s ▸ hf)

/-- **Positions point into the text.** Let a new reader read a text byte by byte, going on after each
fault, and then come to the end of the input. After each byte it tells where the byte is in the text, also
when it has given up the block. Each fault names the byte being read and points at it or, if
this byte ends a word too early, at the address of the word, which is in the same line. The end of the
input is like a line end after the text, or it does nothing. -/
theorem positions_point_into_text (rules : Rules) (b : Builder σ) (onFault : Fault → σ → σ) (t : Bytes)
    (ht : PositionsFit t) (s : σ) :
    (∀ before c after r s', t = before ++ c :: after → feedAll rules b onFault true before {} s = (r, s') →
      (observeByte rules b c r s').PointsInto rules before c ∧
        (feedAll rules b onFault true [c] r s').1.line = lineNumber before ∧
        (feedAll rules b onFault true [c] r s').1.column = columnNumber before) ∧
    ∀ r s', feedAll rules b onFault true t {} s = (r, s') →
      (observeEnd rules b onFault t {} s).PointsInto rules t Byte.lf ∨
        observeEnd rules b onFault t {} s = ⟨[], none, r.line, r.column⟩ := by
  constructor
  · rintro before c after r s' rfl hread
    have hlocated : Located rules before r := by
      have h := located_feedAll rules b onFault s before ht.of_append
      rwa [hread] at h
    have hpos : SamePosition (r.advance c) (feedAll rules b onFault true [c] r s').1 :=
      samePosition_feedAll c s' hlocated.alive
    exact ⟨hlocated.observeByte b c s', hpos.line.trans (hlocated.line c), hpos.column.trans (hlocated.column c)⟩
  · intro r s' hread
    have hlocated : Located rules t r := by
      have h := located_feedAll rules b onFault s t ht
      rwa [hread] at h
    rw [observeEnd, hread]
    simp only [Reader.finish, hlocated.alive, Bool.false_eq_true, if_false]
    split_ifs with hopen
    · refine Or.inr ?_
      rw [Observation.of, fault?_eq_none_iff.mpr hlocated.alive]
    · exact Or.inl (hlocated.observeByte b Byte.lf s')

/-- In the second line of the text the word `G` has a sign and no digit; the end of the input ends it. -/
theorem positions_point_into_text_incomplete :
    ∃ f : Fault, f = ⟨.decimal .incomplete, some Byte.letterG, Byte.lf, 2, 4⟩ ∧
      f.PointsInto {} (ascii "G1 X\nN5 G  -") Byte.lf := by
  have ht : PositionsFit (ascii "G1 X\nN5 G  -") := positionsFit_of_length (by decide)
  have h := (positions_point_into_text {} (fun _ s => (.accept, s)) (fun _ s => s) (ascii "G1 X\nN5 G  -") ht ()).2
  obtain hpoints | hnone := h _ _ rfl
  · exact ⟨_, rfl, hpoints.fault _ (by decide)⟩
  · exact absurd (congrArg Observation.fault hnone) (by decide)

end PartProgram.Block
