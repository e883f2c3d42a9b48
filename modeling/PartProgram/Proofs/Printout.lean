import PartProgram.Proofs.Tokenizing

/-!
# What the printout tells

A run that is not quiet prints one line for each event, in the order of the events. On the line of a
word the number stands after the blank, and nothing else on the line is a blank or a line end
(`numberOn_wordLine`).

The number can be read back from the line exactly if its text fits into the space for it. A text that
does not fit is cut, and what is left of it is another number: the digit that is cut off last is none
that could be left out (`Decimal.isNumber_take_iff`).
-/

namespace PartProgram.Number

theorem isNumber_of_width {a a' : Arithmetic} {n : Bytes} {d : Decimal} (hw : a'.width = a.width)
    (h : Block.IsNumber a n d) : Block.IsNumber a' n d := by
  obtain ⟨w, hw', hcomplete, hfits, hvalue⟩ := isNumber_iff.mp h
  exact isNumber_iff.mpr ⟨w, hw', hcomplete, ⟨hw ▸ hfits.inRange, hfits.places_le, hfits.no_run⟩, hvalue⟩

end PartProgram.Number

namespace PartProgram.Block

open Number

/-- The number that an event carries. -/
def Event.number? : Event → Option Decimal
  | .sequenceNumber _ d | .gCode d | .mCode d | .data _ _ d => some d
  | .programStart | .blockDelete | .endBlock => none

theorem number?_event (w : Word) (d : Decimal) : (w.event d).number? = some d := by
  rw [Word.event]
  split_ifs <;> rfl

end PartProgram.Block

namespace PartProgram.Tool

open Number Block

variable {a : Arithmetic} {e : Event} {d : Decimal} {s t : Bytes}

/-! ### Lines -/

/-- The text is one line, with its end. -/
def IsLine (t : Bytes) : Prop := ∃ s, t = s ++ [Byte.lf] ∧ Byte.lf ∉ s

/-- What stands on a line after the first blank. -/
def numberOn (line : Bytes) : Bytes := ((line.dropWhile (· != Byte.space)).drop 1).dropLast

/-- The text has no blank and no line end. -/
def Solid (t : Bytes) : Prop := ∀ c ∈ t, c ≠ Byte.space ∧ c ≠ Byte.lf

theorem solid_append : Solid (s ++ t) ↔ Solid s ∧ Solid t := List.forall_mem_append

theorem solid_singleton {c : UInt8} : Solid [c] ↔ c ≠ Byte.space ∧ c ≠ Byte.lf := by simp [Solid]

theorem Solid.of_isDigits (h : IsDigits t) : Solid t := by
  intro c hc
  have hdigit : Byte.isDigit c := h c hc
  constructor <;> rintro rfl <;> simp [Byte.isDigit, Byte.space, Byte.lf] at hdigit

theorem Solid.of_isUpper {c : UInt8} (h : Byte.isUpper c) : Solid [c] := by
  rw [solid_singleton]
  constructor <;> rintro rfl <;> simp [Byte.isUpper, Byte.space, Byte.lf] at h

theorem solid_text (d : Decimal) : Solid d.text := by
  have hpoint : Solid [Byte.point] := solid_singleton.mpr (by decide)
  have hminus : Solid [Byte.minus] := solid_singleton.mpr (by decide)
  have hnil : Solid [] := by simp [Solid]
  rw [Decimal.text, Decimal.signText, Decimal.fractionText, solid_append, solid_append]
  refine ⟨⟨?_, .of_isDigits d.isDigits_wholeText⟩, ?_⟩
  · split_ifs
    · exact hminus
    · exact hnil
  · split_ifs
    · exact hnil
    · exact solid_append.mpr ⟨hpoint, .of_isDigits d.isDigits_fractionDigits⟩

theorem solid_intNumeral (i : Int) : Solid (Text.intNumeral i) := by
  have hnumeral : Solid (Text.numeral i.natAbs) := .of_isDigits (Text.isDigits_numeral _)
  rw [Text.intNumeral]
  split_ifs
  · exact solid_append.mpr ⟨solid_singleton.mpr (by decide), hnumeral⟩
  · exact hnumeral

theorem solid_wordName {address : UInt8} (h : Byte.isUpper address) (index : Option Int) :
    Solid (wordName address index) := by
  have haddress : Solid [address] := .of_isUpper h
  cases index with
  | none => exact haddress
  | some i =>
    have hopen : Solid (ascii "[") := solid_singleton.mpr (by decide)
    have hclose : Solid (ascii "]") := solid_singleton.mpr (by decide)
    rw [wordName, solid_append, solid_append, solid_append]
    exact ⟨⟨⟨haddress, hopen⟩, solid_intNumeral i⟩, hclose⟩

/-! ### The lines of words -/

theorem numberText_eq (d : Decimal) : numberText d = d.text.take (numberSpace - 1) := by
  rw [numberText, Decimal.clip_eq, Text.clip]
  rfl

theorem solid_numberText (d : Decimal) : Solid (numberText d) := by
  rw [numberText_eq]
  exact fun c hc => solid_text d c (List.mem_of_mem_take hc)

theorem isLine_wordLine {name : Bytes} (hname : Solid name) (d : Decimal) : IsLine (wordLine name d) := by
  refine ⟨name ++ ascii " " ++ numberText d, rfl, fun hlf => ?_⟩
  rw [List.mem_append, List.mem_append] at hlf
  obtain (hlf | hlf) | hlf := hlf
  · exact (hname _ hlf).2 rfl
  · revert hlf
    decide
  · exact (solid_numberText d _ hlf).2 rfl

theorem numberOn_wordLine {name : Bytes} (hname : Solid name) (d : Decimal) :
    numberOn (wordLine name d) = numberText d := by
  have hdrop : name.dropWhile (· != Byte.space) = [] :=
    List.dropWhile_eq_nil_iff.mpr fun c hc => by simp [(hname c hc).1]
  have hblank : ascii " " = [Byte.space] := rfl
  rw [numberOn, wordLine, List.append_assoc, List.append_assoc, List.dropWhile_append, hdrop, hblank]
  simp

/-! ### The lines of events -/

theorem exists_wordLine {w : Word} (haddress : w.address = Byte.colon ∨ Byte.isUpper w.address) (d : Decimal) :
    ∃ name, Solid name ∧ eventLine (w.event d) = wordLine name d := by
  rw [Word.event]
  split_ifs with hseq hG hM
  · refine ⟨_, ?_, rfl⟩
    split_ifs <;> exact solid_singleton.mpr (by decide)
  · exact ⟨_, solid_singleton.mpr (by decide), rfl⟩
  · exact ⟨_, solid_singleton.mpr (by decide), rfl⟩
  · refine ⟨_, solid_wordName ?_ w.index, rfl⟩
    obtain hcolon | hupper := haddress
    · simp [hcolon, Word.isSequence] at hseq
    · exact hupper

theorem isLine_eventLine (he : e.Read a) : IsLine (eventLine e) := by
  cases he with
  | programStart => exact ⟨ascii "program_start", rfl, by decide⟩
  | blockDelete => exact ⟨ascii "block_delete", rfl, by decide⟩
  | endBlock => exact ⟨ascii "end_block", rfl, by decide⟩
  | @word w n d haddress hn =>
    obtain ⟨name, hname, hline⟩ := exists_wordLine haddress d
    rw [hline]
    exact isLine_wordLine hname d

/-- The number on a line can be read back exactly if its text fits into the space for it. -/
theorem isNumber_numberOn_iff (he : e.Read a) (hd : e.number? = some d) :
    IsNumber a (numberOn (eventLine e)) d ↔ d.text.length < numberSpace := by
  cases he with
  | programStart | blockDelete | endBlock => cases hd
  | @word w n d' haddress hn =>
    obtain rfl : d' = d := by simpa [number?_event] using hd
    obtain ⟨name, hname, hline⟩ := exists_wordLine haddress d'
    -- The number is the one of a literal that was read, so it has no end of zeros that could be cut off.
    rw [hline, numberOn_wordLine hname, numberText_eq, Decimal.isNumber_take_iff hn]
    exact Nat.le_sub_one_iff_lt (by decide)

/-! ### The printout of a run -/

/-- **The printout of a run** that comes to tokenizing and is not quiet is one line for each event that is
found in what it reads. A number can be read back from its line, with significands of the same width,
exactly if its text fits into the space for it. -/
theorem printed_numbers_read_back (args : List Bytes) (input : Bytes) (h h₁ : Host) (job : Job)
    (hready : prepare args input h = .ok (job, h₁)) (hquiet : job.quiet = false) :
    ∃ t, job.source.Supplies h₁ (run args input h).host t ∧
      (run args input h).output = (job.findings t).events.flatMap eventLine ∧
      ∀ e ∈ (job.findings t).events, IsLine (eventLine e) ∧
        ∀ d, e.number? = some d → ∀ a : Arithmetic, a.width = job.settings.rules.arithmetic.width →
          (IsNumber a (numberOn (eventLine e)) d ↔ d.text.length < numberSpace) := by
  obtain ⟨t, hread⟩ := job.exists_reads h₁
  have hrun : run args input h = job.conclude (job.tokenize h₁) := by rw [run, hready]
  refine ⟨t, ?_, ?_, fun e he => ?_⟩
  · rw [hrun]
    exact hread.supplied.of_loggedTo (job.loggedTo_conclude _)
  · rw [hrun, hread.output hquiet, printout]
  · have hevent : e.Read job.settings.rules.arithmetic := read_findings _ _ t e he
    refine ⟨isLine_eventLine hevent, fun d hd a hwidth => ?_⟩
    rw [← isNumber_numberOn_iff hevent hd]
    exact ⟨isNumber_of_width hwidth.symm, isNumber_of_width hwidth⟩

/-- The number of a word is printed, and read back from its line. -/
theorem printed_numbers_read_back_short :
    ∃ job h₁, prepare [] (ascii "X-1.50\n") {} = .ok (job, h₁) ∧ job.quiet = false ∧
      IsNumber job.settings.rules.arithmetic (numberOn (ascii "X -1.5\n")) ⟨-15, 1⟩ := by
  refine ⟨_, _, rfl, rfl, ?_⟩
  obtain ⟨t, hsupplied, -, hlines⟩ := printed_numbers_read_back [] (ascii "X-1.50\n") {} {} _ rfl rfl
  cases hsupplied
  exact ((hlines (.data 0x58 none ⟨-15, 1⟩) (by decide)).2 ⟨-15, 1⟩ rfl _ rfl).mpr (by decide)

/-- A block with a number of many places. -/
def manyPlaces : Bytes := ascii "X." ++ List.replicate 45 Byte.zero ++ ascii "1\n"

/-- A number whose text does not fit is printed as another one. -/
theorem printed_number_cut_off :
    (findings {} false manyPlaces).events = [.programStart, .data 0x58 none ⟨1, 46⟩, .endBlock] ∧
      (run [] manyPlaces {}).output =
        ascii "program_start\nX 0." ++ List.replicate 45 Byte.zero ++ ascii "\nend_block\n" ∧
      ¬ IsNumber {} (ascii "0." ++ List.replicate 45 Byte.zero) ⟨1, 46⟩ := by
  refine ⟨by decide, by decide, ?_⟩
  rw [IsNumber]
  decide

end PartProgram.Tool
