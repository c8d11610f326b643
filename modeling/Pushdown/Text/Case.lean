/-!
# Letter case

Search without regard to case, for texts that have to be found in ASCII text.
-/

namespace Pushdown.Text

/-- The lower-case form of a character as far as it is an ASCII letter: that of the letters from `A`
to `Z` and of the Kelvin sign, which is a `k`. Other characters, whose lower-case forms are not
ASCII, stay as they are. -/
def lowerChar (c : Char) : Char := if c = '\u212a' then 'k' else c.toLower

def lower (text : List Char) : List Char := text.map lowerChar

def occursIn (part : List Char) : List Char → Bool
  | [] => part.isEmpty
  | c :: rest => part.isPrefixOf (c :: rest) || occursIn part rest

/-- Whether a text occurs in an ASCII text, whatever the case of their letters. -/
def occursInAnyCase (part whole : String) : Bool :=
  occursIn (lower part.toList) (lower whole.toList)

end Pushdown.Text
