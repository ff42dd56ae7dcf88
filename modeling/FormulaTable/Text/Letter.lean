/-! Case mappings that suffice for comparing a text with a word of unaccented Latin letters. -/

namespace FormulaTable.Text

def lower (s : String) : String := s.map Char.toLower

/-- Upper case of a character as far as it can be a letter A to Z: besides a to z the dotless
ı and the long ſ have such an upper case. -/
def upperChar (c : Char) : Char :=
  if c = 'ı' then 'I' else if c = 'ſ' then 'S' else c.toUpper

def upper (s : String) : String := s.map upperChar

end FormulaTable.Text
