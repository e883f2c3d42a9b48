import PartProgram.Block.Feed
import PartProgram.Proofs.Dispatch
import PartProgram.Proofs.LiteralReading

/-!
# The grammar of lines

A line of a part program, without its line end, is

    line  = gap '%' any* | gap ['/' gap] [('N' | ':') sp* number gap] (word gap)* closing
    word  = letter sp* number | dletter sp* digit+ '=' sp* number
    gap   = (space | TAB | CR | '(' (any byte except ')')* ')')*
    closing = ['*' digit+ gap] [';' any*]
    sp    = space | TAB

where a letter is one of `A` to `Z` other than `N`, a `dletter` moreover neither `G` nor `M`, and
small letters count as capital ones if the rules say so. The relations below are these rules, one
for each, together with the events of what they derive. A number is a decimal literal that is taken
without a fault; the digits of an index must fit a significand.
-/

namespace PartProgram.Block

open Number

/-! ### Gaps -/

/-- Blanks and comments. -/
inductive Gap : Bytes → Prop where
  /-- Nothing. -/
  | nil : Gap []
  /-- A blank. -/
  | blank {c : UInt8} {g : Bytes} : Reader.IsBlank c → Gap g → Gap (c :: g)
  /-- A comment in parentheses. -/
  | comment {u g : Bytes} : Byte.closeParen ∉ u → Gap g → Gap (Byte.openParen :: (u ++ Byte.closeParen :: g))

/-- Spaces and tabulators, which may stand before a number. -/
def Spaces (sp : Bytes) : Prop := ∀ c ∈ sp, c = Byte.space ∨ c = Byte.tab

theorem spaces_nil : Spaces [] := fun _ h => absurd h List.not_mem_nil

theorem Spaces.cons {c : UInt8} {sp : Bytes} (hc : c = Byte.space ∨ c = Byte.tab) (h : Spaces sp) :
    Spaces (c :: sp) := by
  intro d hd
  rcases List.mem_cons.mp hd with rfl | hd
  · exact hc
  · exact h d hd

/-! ### Words -/

/-- `Letter rules c letter`: the byte `c` stands for the capital letter `letter`. -/
inductive Letter (rules : Rules) : UInt8 → UInt8 → Prop where
  /-- A capital letter stands for itself. -/
  | upper {c : UInt8} : Byte.isUpper c → Letter rules c c
  /-- A small letter stands for the capital one, where small letters are accepted. -/
  | lower {c : UInt8} : rules.acceptLowercase → Byte.isLower c → Letter rules c (Byte.toUpper c)

theorem isLower_of_isUpper {c : UInt8} (h : Byte.isUpper c) : Byte.isLower c = false := by
  grind [Byte.isUpper, Byte.isLower]

theorem isUpper_toUpper {c : UInt8} (h : Byte.isLower c) : Byte.isUpper (Byte.toUpper c) := by
  grind [Byte.isUpper, Byte.isLower, Byte.toUpper]

theorem toUpper_of_not_isLower {c : UInt8} (h : Byte.isLower c = false) : Byte.toUpper c = c := by
  simp [Byte.toUpper, h]

theorem Letter.isUpper {rules : Rules} {c letter : UInt8} (h : Letter rules c letter) : Byte.isUpper letter := by
  cases h with
  | upper h => exact h
  | lower _ h => exact isUpper_toUpper h

theorem Letter.isUpper_or_isLower {rules : Rules} {c letter : UInt8} (h : Letter rules c letter) :
    Byte.isUpper c ∨ Byte.isLower c := by
  cases h with
  | upper hu => exact Or.inl hu
  | lower _ hl => exact Or.inr hl

/-- The bytes that the reader takes for an address are the letters and the colon. -/
theorem addressOf?_eq_some_iff {rules : Rules} {c letter : UInt8} :
    Reader.addressOf? rules c = some letter ↔ Letter rules c letter ∨ (c = Byte.colon ∧ letter = Byte.colon) := by
  constructor
  · intro h
    rw [Reader.addressOf?] at h
    cases hl : Byte.isLower c with
    | true =>
      cases ha : rules.acceptLowercase with
      | false => simp [hl, ha] at h
      | true =>
        simp only [hl, ha, Bool.not_true, Bool.and_false, Bool.false_eq_true, if_false,
          isUpper_toUpper hl, or_true, if_true, Option.some.injEq] at h
        exact Or.inl (h ▸ Letter.lower ha hl)
    | false =>
      simp only [hl, Bool.false_and, Bool.false_eq_true, if_false, toUpper_of_not_isLower hl] at h
      split at h
      · rename_i hc
        obtain rfl := Option.some.inj h
        rcases hc with rfl | hu
        · exact Or.inr ⟨rfl, rfl⟩
        · exact Or.inl (Letter.upper hu)
      · cases h
  · rintro (h | ⟨rfl, rfl⟩)
    · rw [Reader.addressOf?]
      cases h with
      | upper hu => simp [isLower_of_isUpper hu, toUpper_of_not_isLower, hu]
      | lower ha hl => simp [ha, isUpper_toUpper hl]
    · have hl : Byte.isLower Byte.colon = false := by decide
      simp [Reader.addressOf?, hl, toUpper_of_not_isLower]

/-- A number: a decimal literal that is taken without a fault, and its value. -/
def IsNumber (a : Arithmetic) (n : Bytes) (d : Decimal) : Prop :=
  (Literal.feed a {} n).error = none ∧ (Literal.feed a {} n).literal.finish = .ok d

/-- The digits of an index, and what they denote. -/
def IsIndex (a : Arithmetic) (ds : Bytes) (i : Nat) : Prop :=
  ds ≠ [] ∧ IsDigits ds ∧ i = Text.ofDigits ds ∧ a.width.InRange i

/-- The event of a word without index. -/
def plainEvent (letter : UInt8) (d : Decimal) : Event :=
  if letter = Byte.letterG then .gCode d
  else if letter = Byte.letterM then .mCode d
  else .data letter none d

/-- A word and its event. -/
inductive WordText (rules : Rules) : Bytes → Event → Prop where
  /-- A letter and a number. -/
  | plain {c letter : UInt8} {sp n : Bytes} {d : Decimal} : Letter rules c letter → letter ≠ Byte.letterN →
      Spaces sp → IsNumber rules.arithmetic n d → WordText rules (c :: (sp ++ n)) (plainEvent letter d)
  /-- A letter with an index, and a number. -/
  | indexed {c letter : UInt8} {sp ds sp' n : Bytes} {i : Nat} {d : Decimal} : Letter rules c letter →
      letter ∉ [Byte.letterN, Byte.letterG, Byte.letterM] → Spaces sp → IsIndex rules.arithmetic ds i →
      Spaces sp' → IsNumber rules.arithmetic n d →
      WordText rules (c :: (sp ++ (ds ++ Byte.equals :: (sp' ++ n)))) (.data letter (some i) d)

/-- A block number and its event. -/
inductive SequenceText (rules : Rules) : Bytes → Event → Prop where
  /-- With the letter `N`. -/
  | number {c : UInt8} {sp n : Bytes} {d : Decimal} : Letter rules c Byte.letterN → Spaces sp →
      IsNumber rules.arithmetic n d → SequenceText rules (c :: (sp ++ n)) (.sequenceNumber false d)
  /-- With a colon, for an alignment block. -/
  | alignment {sp n : Bytes} {d : Decimal} : Spaces sp →
      IsNumber rules.arithmetic n d → SequenceText rules (Byte.colon :: (sp ++ n)) (.sequenceNumber true d)

/-! ### Lines -/

/-- The end of a line: nothing, or a comment that reaches to its end. -/
inductive Ending : Bytes → Prop where
  /-- Nothing. -/
  | nil : Ending []
  /-- A comment. -/
  | comment (u : Bytes) : Ending (Byte.semicolon :: u)

/-- What may follow the words: a checksum, and the end of the line. -/
inductive Closing : Bytes → Prop where
  /-- No checksum. -/
  | ending {t : Bytes} : Ending t → Closing t
  /-- A checksum. -/
  | checksum {ds g t : Bytes} : ds ≠ [] → IsDigits ds → Gap g → Ending t →
      Closing (Byte.star :: (ds ++ (g ++ t)))

/-- Words with the gaps after them, and what follows. -/
inductive Words (rules : Rules) : Bytes → List Event → Prop where
  /-- No further word. -/
  | closing {t : Bytes} : Closing t → Words rules t []
  /-- A word. -/
  | word {w g t : Bytes} {e : Event} {es : List Event} : WordText rules w e → Gap g → Words rules t es →
      Words rules (w ++ (g ++ t)) (e :: es)

/-- The block number, if there is one, and the words. -/
inductive Numbered (rules : Rules) : Bytes → List Event → Prop where
  /-- No block number. -/
  | words {t : Bytes} {es : List Event} : Words rules t es → Numbered rules t es
  /-- A block number. -/
  | sequence {n g t : Bytes} {e : Event} {es : List Event} : SequenceText rules n e → Gap g → Words rules t es →
      Numbered rules (n ++ (g ++ t)) (e :: es)

/-- What a line has after the gap it starts with. -/
inductive Content (rules : Rules) : Bytes → List Event → Prop where
  /-- The mark of a program's start or end. -/
  | marker (u : Bytes) : Content rules (Byte.percent :: u) []
  /-- A block. -/
  | block {t : Bytes} {es : List Event} : Numbered rules t es → Content rules t es
  /-- A block that may be skipped. -/
  | deleted {g t : Bytes} {es : List Event} : Gap g → Numbered rules t es →
      Content rules (Byte.slash :: (g ++ t)) (.blockDelete :: es)

/-- `Line rules t es`: the text `t` is a line, and its elements are `es`, in this order. -/
inductive Line (rules : Rules) : Bytes → List Event → Prop where
  /-- A gap, and the content. -/
  | mk {g t : Bytes} {es : List Event} : Gap g → Content rules t es → Line rules (g ++ t) es

/-! ### What the builder is told of a line -/

/-- That a program begins, unless the builder knows. -/
def opening (started : Bool) : List Event := if started then [] else [.programStart]

/-- What the builder is told of a line with the given elements: that a program begins, unless it
knows, the elements, and the end of the block. Of a line without elements it is told nothing. -/
def callbacks (started : Bool) (es : List Event) : List Event :=
  if es = [] then [] else opening started ++ es ++ [.endBlock]

end PartProgram.Block
