import Mathlib.Data.Nat.Digits.Defs
import PartProgram.Proofs.FaultReport
import PartProgram.Proofs.NumberText
import PartProgram.Text.Clip

/-!
# The line that goes to the log

The report of a fault is logged as one line of text. The byte that the reader stopped at can be any, so it must not
get into the log as it is; and a line is only of use if it is complete and nothing else gives the same line.

The parts of the line have no fixed widths. Each can be told from what follows it all the same: a numeral ends at the
first byte that is no digit, a name before a blank or a parenthesis, and how the word and the byte are introduced
differs (`Report.Legible.text_eq_iff`). This needs the reports to be those of readers: the numbers in other reports
may stand for nothing (`Report.Legible`).
-/

namespace PartProgram

variable {u v s t : Bytes} {c d : UInt8}

namespace Text

/-! ### Texts in a space -/

/-- The text has room in a space of `size` bytes. -/
def HasRoom (size : Nat) (text : Bytes) : Prop := clip size text = ⟨text.length, some text⟩

theorem hasRoom_of_length_lt {size : Nat} (h : u.length < size) : HasRoom size u := by
  have hsize : size ≠ 0 := by omega
  rw [HasRoom, clip, if_neg hsize, List.take_of_length_le (by omega)]

/-! ### Bytes that can be shown -/

/-- The text is printable ASCII. -/
def Shown (text : Bytes) : Prop := ∀ c ∈ text, 0x20 ≤ c ∧ c ≤ 0x7e

instance (text : Bytes) : Decidable (Shown text) := List.decidableBAll _ text

theorem shown_append : Shown (u ++ v) ↔ Shown u ∧ Shown v := List.forall_mem_append

theorem shown_singleton : Shown [c] ↔ 0x20 ≤ c ∧ c ≤ 0x7e := List.forall_mem_singleton

theorem shown_numeral (n : Nat) : Shown (numeral n) := by
  intro c hc
  have hdigit := isDigits_numeral n c hc
  rw [Byte.isDigit, Bool.and_eq_true, decide_eq_true_eq, decide_eq_true_eq] at hdigit
  exact ⟨UInt8.le_trans (by decide) hdigit.1, UInt8.le_trans hdigit.2 (by decide)⟩

/-! ### Where a part of a text ends -/

/-- A text is divided in one way only into bytes of a class and what follows them. -/
theorem append_cons_inj {p : UInt8 → Bool} (hu : u.all p) (hv : v.all p) (hc : p c = false) (hd : p d = false)
    (h : u ++ c :: s = v ++ d :: t) : u = v ∧ c :: s = d :: t := by
  have htake : u = v := by
    have := congrArg (List.takeWhile p) h
    rwa [List.takeWhile_append_of_pos (List.all_eq_true.mp hu), List.takeWhile_append_of_pos (List.all_eq_true.mp hv),
      List.takeWhile_cons_of_neg (by simp [hc]), List.takeWhile_cons_of_neg (by simp [hd]), List.append_nil,
      List.append_nil] at this
  subst htake
  exact ⟨rfl, List.append_cancel_left h⟩

theorem numeral_cons_inj {m n : Nat} (hc : Byte.isDigit c = false)
    (h : numeral m ++ c :: s = numeral n ++ c :: t) : m = n ∧ s = t := by
  obtain ⟨hnumeral, hrest⟩ := append_cons_inj (List.all_eq_true.mpr (isDigits_numeral m))
    (List.all_eq_true.mpr (isDigits_numeral n)) hc hc h
  refine ⟨?_, List.tail_eq_of_cons_eq hrest⟩
  rw [← ofDigits_numeral m, hnumeral, ofDigits_numeral]

theorem length_numeral_le {n k : Nat} (hk : 0 < k) (h : n < 10 ^ k) : (numeral n).length ≤ k := by
  rw [numeral, List.length_map]
  exact Nat.toDigits_length 10 n k hk h

/-! ### Two hexadecimal digits -/

/-- The byte of a hexadecimal digit is shown, and no other digit has it. -/
theorem hexDigit_spec : ∀ m < 16, Shown [(Nat.digitChar m).toUInt8] ∧
    ∀ n < 16, (Nat.digitChar m).toUInt8 = (Nat.digitChar n).toUInt8 → m = n := by
  decide

theorem shown_hexByte (c : UInt8) : Shown (hexByte c) := by
  have hc : c.toNat < 256 := c.toNat_lt
  exact shown_append.mpr ⟨(hexDigit_spec (c.toNat / 16) (by omega)).1, (hexDigit_spec (c.toNat % 16) (by omega)).1⟩

theorem hexByte_inj (h : hexByte c = hexByte d) : c = d := by
  have hc : c.toNat < 256 := c.toNat_lt
  have hd : d.toNat < 256 := d.toNat_lt
  simp only [hexByte, List.map_cons, List.map_nil, List.cons.injEq, and_true] at h
  have hhigh := (hexDigit_spec (c.toNat / 16) (by omega)).2 (d.toNat / 16) (by omega) h.1
  have hlow := (hexDigit_spec (c.toNat % 16) (by omega)).2 (d.toNat % 16) (by omega) h.2
  exact UInt8.toNat_inj.mp (by omega)

end Text

namespace Block

open Number Text

variable {σ τ : Type} {rules : Rules} {r : Reader} {x y : Report}

/-! ### The byte that was being read -/

/-- The bytes that have an escape of their own. -/
def escapes : List (UInt8 × Bytes) := [(Byte.lf, ascii "\\n"), (Byte.cr, ascii "\\r"), (Byte.tab, ascii "\\t")]

theorem escapes_inj : ∀ e ∈ escapes, ∀ f ∈ escapes, e.2 = f.2 → e.1 = f.1 := by
  decide

theorem escapes_shown : ∀ e ∈ escapes, Shown e.2 := by
  decide

/-- A byte is shown in one of three ways, which can be told by the length. -/
theorem printable_cases (c : UInt8) :
    ((c, printable c) ∈ escapes ∧ (printable c).length = 2) ∨
      (printable c = ascii "\\x" ++ hexByte c ∧ (printable c).length = 4) ∨
      ((0x20 ≤ c ∧ c ≤ 0x7e) ∧ printable c = [c] ∧ (printable c).length = 1) := by
  rw [printable]
  split_ifs with hlf hcr htab hrange
  · exact Or.inl ⟨by rw [hlf]; decide, rfl⟩
  · exact Or.inl ⟨by rw [hcr]; decide, rfl⟩
  · exact Or.inl ⟨by rw [htab]; decide, rfl⟩
  · exact Or.inr (Or.inl ⟨rfl, rfl⟩)
  · refine Or.inr (Or.inr ⟨?_, rfl, rfl⟩)
    rw [UInt8.lt_iff_toNat_lt, UInt8.le_iff_toNat_le] at hrange
    rw [UInt8.le_iff_toNat_le, UInt8.le_iff_toNat_le]
    simp only [UInt8.reduceToNat] at hrange ⊢
    omega

theorem shown_printable (c : UInt8) : Shown (printable c) := by
  obtain ⟨h, -⟩ | ⟨h, -⟩ | ⟨hc, h, -⟩ := printable_cases c
  · exact escapes_shown _ h
  · rw [h]
    exact shown_append.mpr ⟨by decide, shown_hexByte c⟩
  · rw [h]
    exact shown_singleton.mpr hc

theorem length_printable_le (c : UInt8) : (printable c).length ≤ 4 := by
  obtain ⟨-, h⟩ | ⟨-, h⟩ | ⟨-, -, h⟩ := printable_cases c <;> omega

/-- No two bytes are shown in the same way. A backslash stands for itself, but then it stands alone. -/
theorem printable_inj (h : printable c = printable d) : c = d := by
  have hlength : (printable c).length = (printable d).length := congrArg List.length h
  obtain ⟨hc, hm⟩ | ⟨hc, hm⟩ | ⟨-, hc, hm⟩ := printable_cases c <;>
    obtain ⟨hd, hn⟩ | ⟨hd, hn⟩ | ⟨-, hd, hn⟩ := printable_cases d <;>
    try omega
  · exact escapes_inj _ hc _ hd h
  · rw [hc, hd] at h
    exact hexByte_inj (List.append_cancel_left h)
  · rw [hc, hd] at h
    exact List.head_eq_of_cons_eq h

/-! ### The names of kinds and errors -/

/-- The numbers of kinds in the reports of readers. -/
def kinds : List Int := [0, 1, 2, 3, 4, 5, 6]

/-- The numbers of errors in the reports of readers. -/
def errors : List Int := [0, 1, 2, 3]

theorem kindName_inj : ∀ k ∈ kinds, ∀ l ∈ kinds, kindName k = kindName l → k = l := by
  decide

theorem errorName_inj : ∀ e ∈ errors, ∀ f ∈ errors, Literal.errorName e = Literal.errorName f → e = f := by
  decide

/-- The name of a kind is short and has no blank. -/
theorem kindName_spec (k : Int) :
    Shown (kindName k) ∧ (kindName k).length ≤ 19 ∧ (kindName k).all (· != Byte.space) := by
  rw [kindName]
  split_ifs <;> decide

/-- The name of an error is short and has no parenthesis. -/
theorem errorName_spec (e : Int) : Shown (Literal.errorName e) ∧ (Literal.errorName e).length ≤ 16 ∧
    (Literal.errorName e).all (· != Byte.closeParen) := by
  rw [Literal.errorName]
  split_ifs <;> decide

/-! ### Reports that can be told -/

/-- What the report tells has a name and can be shown. -/
structure Report.Legible (x : Report) : Prop where
  kind : x.kind ∈ kinds
  decimal : x.decimal ∈ errors
  decimal_eq : x.kind ≠ 5 → x.decimal = 0
  address : x.address = Byte.nul ∨ IsAddress x.address
  line_le : x.line ≤ maxPosition
  column_le : x.column ≤ maxPosition

theorem Reachable.legible (h : Reachable rules r) : r.report.Legible := by
  cases hf : r.fault? with
  | none =>
    rw [report_of_none hf]
    exact ⟨by decide, by decide, fun _ => rfl, Or.inl rfl, Nat.zero_le _, Nat.zero_le _⟩
  | some f =>
    have hsound := h.sound hf
    have hmeasured := h.measured
    obtain ⟨hline, -, hcolumn⟩ := hmeasured.fault hf
    rw [report_of_some hf]
    obtain ⟨cause, address, character, line, column⟩ := f
    constructor
    case kind => cases cause <;> simp [Fault.report, Cause.code, kinds]
    case decimal =>
      cases cause with
      | decimal e => cases e <;> simp [Fault.report, Cause.decimalCode, Literal.Error.code, errors]
      | _ => simp [Fault.report, Cause.decimalCode, errors]
    case decimal_eq => cases cause <;> simp [Fault.report, Cause.code, Cause.decimalCode]
    case address => exact hsound.report_address
    case line_le => exact hline.trans_le hmeasured.line_le
    case column_le => exact hcolumn.trans hmeasured.column_le

theorem IsAddress.shown {a : UInt8} (h : IsAddress a) : Shown [a] := by
  rcases h with rfl | h
  · decide
  · rw [Byte.isUpper, Bool.and_eq_true, decide_eq_true_eq, decide_eq_true_eq] at h
    exact shown_singleton.mpr ⟨UInt8.le_trans (by decide) h.1, UInt8.le_trans h.2 (by decide)⟩

namespace Report

/-! ### The line is complete and harmless -/

theorem length_decimalDetail_le (x : Report) : x.decimalDetail.length ≤ 19 := by
  obtain ⟨-, hlength, -⟩ := errorName_spec x.decimal
  rw [decimalDetail]
  split_ifs
  · have hopen : (ascii " (").length = 2 := rfl
    have hclose : (ascii ")").length = 1 := rfl
    rw [List.length_append, List.length_append]
    omega
  · exact Nat.zero_le _

theorem length_wordDetail_le (x : Report) : x.wordDetail.length ≤ 12 := by
  rw [wordDetail]
  split_ifs
  · exact Nat.zero_le _
  · exact le_of_eq rfl

theorem Legible.length_text_lt (h : x.Legible) : x.text.length < 128 := by
  have hline : (numeral x.line).length ≤ 10 :=
    length_numeral_le (by decide) (h.line_le.trans_lt (by decide))
  have hcolumn : (numeral x.column).length ≤ 10 :=
    length_numeral_le (by decide) (h.column_le.trans_lt (by decide))
  have hkind : (kindName x.kind).length ≤ 19 := (kindName_spec x.kind).2.1
  have hdecimal := x.length_decimalDetail_le
  have hword := x.length_wordDetail_le
  have hcharacter := length_printable_le x.character
  have hfixed : (ascii ":").length = 1 ∧ (ascii ": ").length = 2 ∧ (ascii " at '").length = 5 ∧
      (ascii "'").length = 1 := ⟨rfl, rfl, rfl, rfl⟩
  rw [text]
  simp only [List.length_append]
  omega

theorem shown_decimalDetail (x : Report) : Shown x.decimalDetail := by
  rw [decimalDetail]
  split_ifs
  · simp only [shown_append]
    exact ⟨⟨by decide, (errorName_spec x.decimal).1⟩, by decide⟩
  · decide

theorem Legible.shown_wordDetail (h : x.Legible) : Shown x.wordDetail := by
  rw [wordDetail]
  split_ifs with hnul
  · decide
  · have haddress : IsAddress x.address := h.address.resolve_left hnul
    simp only [shown_append]
    exact ⟨⟨by decide, haddress.shown⟩, by decide⟩

theorem Legible.shown_text (h : x.Legible) : Shown x.text := by
  simp only [text, shown_append, and_assoc]
  exact ⟨shown_numeral x.line, by decide, shown_numeral x.column, by decide, (kindName_spec x.kind).1,
    x.shown_decimalDetail, h.shown_wordDetail, by decide, shown_printable x.character, by decide⟩

/-! ### The line tells everything -/

/-- The end of the line: the byte. -/
def characterText (x : Report) : Bytes := ascii " at '" ++ (printable x.character ++ ascii "'")

/-- The end of the line from the word on. -/
def wordText (x : Report) : Bytes := x.wordDetail ++ x.characterText

/-- The end of the line from the error in the number on. -/
def decimalText (x : Report) : Bytes := x.decimalDetail ++ x.wordText

theorem text_eq (x : Report) :
    x.text = numeral x.line ++ Byte.colon ::
      (numeral x.column ++ Byte.colon :: Byte.space :: (kindName x.kind ++ x.decimalText)) := by
  simp only [text, decimalText, wordText, characterText, List.append_assoc]
  rfl

theorem characterText_inj (h : x.characterText = y.characterText) : x.character = y.character :=
  printable_inj (List.append_cancel_right (List.append_cancel_left h))

theorem wordText_of_nul (h : x.address = Byte.nul) : x.wordText = x.characterText := by
  rw [wordText, wordDetail, if_pos h, List.nil_append]

theorem wordText_of_ne_nul (h : x.address ≠ Byte.nul) :
    x.wordText = ascii " in word '" ++ [x.address] ++ ascii "'" ++ x.characterText := by
  rw [wordText, wordDetail, if_neg h]

/-- The second byte tells whether there is a word. -/
theorem wordText_ne_characterText (h : x.address ≠ Byte.nul) : x.wordText ≠ y.characterText := by
  intro htext
  rw [wordText_of_ne_nul h] at htext
  have hsecond : some 'i'.toUInt8 = some 'a'.toUInt8 := congrArg (fun t => t[1]?) htext
  exact absurd hsecond (by decide)

theorem wordText_inj (h : x.wordText = y.wordText) : x.address = y.address ∧ x.character = y.character := by
  by_cases hx : x.address = Byte.nul <;> by_cases hy : y.address = Byte.nul
  · rw [wordText_of_nul hx, wordText_of_nul hy] at h
    exact ⟨hx.trans hy.symm, characterText_inj h⟩
  · rw [wordText_of_nul hx] at h
    exact absurd h.symm (wordText_ne_characterText hy)
  · rw [wordText_of_nul hy] at h
    exact absurd h (wordText_ne_characterText hx)
  · rw [wordText_of_ne_nul hx, wordText_of_ne_nul hy] at h
    obtain ⟨hword, hcharacter⟩ := List.append_inj h rfl
    have haddress := List.append_cancel_left (List.append_cancel_right hword)
    exact ⟨List.head_eq_of_cons_eq haddress, characterText_inj hcharacter⟩

theorem Legible.decimalText_inj (hx : x.Legible) (hy : y.Legible) (hkind : x.kind = y.kind)
    (h : x.decimalText = y.decimalText) : x.decimal = y.decimal ∧ x.wordText = y.wordText := by
  rw [decimalText, decimalText, decimalDetail, decimalDetail, hkind] at h
  split_ifs at h with h5
  · -- The name of the error ends before the parenthesis.
    simp only [List.append_assoc] at h
    obtain ⟨hname, hrest⟩ := append_cons_inj (errorName_spec x.decimal).2.2 (errorName_spec y.decimal).2.2 rfl rfl
      (List.append_cancel_left h)
    exact ⟨errorName_inj _ hx.decimal _ hy.decimal hname, List.tail_eq_of_cons_eq hrest⟩
  · exact ⟨(hx.decimal_eq (hkind ▸ h5)).trans (hy.decimal_eq h5).symm, h⟩

/-- What follows the name of the kind begins with a blank. -/
theorem exists_decimalText_eq (x : Report) : ∃ s, x.decimalText = Byte.space :: s := by
  rw [decimalText, wordText, decimalDetail, wordDetail]
  split_ifs <;> exact ⟨_, rfl⟩

/-- **The line tells everything** but the builder's code. -/
theorem Legible.text_eq_iff (hx : x.Legible) (hy : y.Legible) : x.text = y.text ↔
    x.kind = y.kind ∧ x.decimal = y.decimal ∧ x.address = y.address ∧ x.character = y.character ∧ x.line = y.line ∧
      x.column = y.column := by
  constructor
  · -- The parts are taken off from the front, each up to a byte that it cannot have.
    intro h
    rw [text_eq, text_eq] at h
    obtain ⟨hline, h⟩ := numeral_cons_inj rfl h
    obtain ⟨hcolumn, h⟩ := numeral_cons_inj rfl h
    obtain ⟨s, hs⟩ := x.exists_decimalText_eq
    obtain ⟨t, ht⟩ := y.exists_decimalText_eq
    rw [hs, ht] at h
    obtain ⟨hname, hrest⟩ := append_cons_inj (kindName_spec x.kind).2.2 (kindName_spec y.kind).2.2 rfl rfl
      (List.tail_eq_of_cons_eq h)
    have hkind := kindName_inj _ hx.kind _ hy.kind hname
    rw [← hs, ← ht] at hrest
    obtain ⟨hdecimal, hword⟩ := hx.decimalText_inj hy hkind hrest
    obtain ⟨haddress, hcharacter⟩ := wordText_inj hword
    exact ⟨hkind, hdecimal, haddress, hcharacter, hline, hcolumn⟩
  · rintro ⟨hkind, hdecimal, haddress, hcharacter, hline, hcolumn⟩
    rw [text, text, decimalDetail, decimalDetail, wordDetail, wordDetail, hkind, hdecimal, haddress, hcharacter, hline,
      hcolumn]

end Report

/-- **A report is logged safely and without loss.** Whatever has been called on two new readers, and whatever the
builders answered: the text of the report has room in 128 bytes, and each of its details in the space it is put
together in. It is printable ASCII, whatever byte the reader stopped at. And the two reports have the same text exactly
if they agree in everything but the builder's code. -/
theorem report_text_safe_lossless (rules rules' : Rules) (b : Builder σ) (b' : Builder τ) (calls calls' : List Call)
    (s : σ) (t : τ) :
    let x := (run rules b calls s).1.report
    let y := (run rules' b' calls' t).1.report
    (HasRoom 128 x.text ∧ HasRoom 32 x.decimalDetail ∧ HasRoom 16 x.wordDetail ∧ HasRoom 5 (printable x.character)) ∧
      (∀ c ∈ x.text, 0x20 ≤ c ∧ c ≤ 0x7e) ∧
      (x.text = y.text ↔
        x.kind = y.kind ∧ x.decimal = y.decimal ∧ x.address = y.address ∧ x.character = y.character ∧
          x.line = y.line ∧ x.column = y.column) := by
  intro x y
  have hx : x.Legible := (reachable_run rules b calls s).legible
  have hy : y.Legible := (reachable_run rules' b' calls' t).legible
  refine ⟨⟨?_, ?_, ?_, ?_⟩, hx.shown_text, hx.text_eq_iff hy⟩
  · exact hasRoom_of_length_lt hx.length_text_lt
  · exact hasRoom_of_length_lt (Nat.lt_of_le_of_lt x.length_decimalDetail_le (by decide))
  · exact hasRoom_of_length_lt (Nat.lt_of_le_of_lt x.length_wordDetail_le (by decide))
  · exact hasRoom_of_length_lt (Nat.lt_of_le_of_lt (length_printable_le x.character) (by decide))

end Block

end PartProgram
