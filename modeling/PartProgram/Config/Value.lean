import PartProgram.Text.Integer

/-!
# Values of settings

The forms in which a setting's value can be written.
-/

namespace PartProgram.Config

/-- A truth value, in one of four spellings each; case does not matter. -/
def bool? (value : Bytes) : Option Bool :=
  let v := Text.lower value
  if v ∈ [ascii "1", ascii "yes", ascii "true", ascii "on"] then some true
  else if v ∈ [ascii "0", ascii "no", ascii "false", ascii "off"] then some false
  else none

/-- An integer of 32 bits. -/
def int? (value : Bytes) : Option Int := Text.int32? value

end PartProgram.Config
