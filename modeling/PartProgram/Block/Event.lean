import PartProgram.Number.Decimal

/-!
# Events

What a reader of part programs reports, and to whom. A part program is a sequence of
blocks, one to a line; a block is a sequence of words, each a letter (its address) and a
number. The one who receives the events is a *builder*: it keeps a state of its own and may
refuse an event with a code, which stops the reader.
-/

namespace PartProgram.Block

open Number

/-- Something that the reader found in a part program. -/
inductive Event where
  /-- A program begins. -/
  | programStart
  /-- The block is marked as one that may be skipped. -/
  | blockDelete
  /-- The block's number; `alignment` tells a `:` number from an `N` number. -/
  | sequenceNumber (alignment : Bool) (number : Decimal)
  /-- A preparatory function, address `G`. -/
  | gCode (number : Decimal)
  /-- A miscellaneous function, address `M`. -/
  | mCode (number : Decimal)
  /-- Any other word; an address such as `R` may have an index, as in `R1=5`. -/
  | data (address : UInt8) (index : Option Int) (number : Decimal)
  /-- The block ends. -/
  | endBlock
  deriving DecidableEq, Repr, Inhabited

/-- Whether an event is a word. -/
def Event.isWord : Event → Bool
  | .sequenceNumber .. | .gCode .. | .mCode .. | .data .. => true
  | .programStart | .blockDelete | .endBlock => false

/-- A builder's answer to an event. -/
inductive Answer where
  /-- The event is taken. -/
  | accept
  /-- The event is refused, for a reason that only the builder knows. -/
  | refuse (code : Int)
  deriving DecidableEq, Repr, Inhabited

/-- A receiver of events with a state of type `σ`. -/
abbrev Builder (σ : Type) := Event → σ → Answer × σ

end PartProgram.Block
