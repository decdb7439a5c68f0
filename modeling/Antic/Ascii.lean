import Mathlib.Data.UInt

/-! # The bytes that the text formats share -/

namespace Ascii

def comma : UInt8 := 44
def openBracket : UInt8 := 91
def closeBracket : UInt8 := 93
def openBrace : UInt8 := 123
def closeBrace : UInt8 := 125

def isDigit (c : UInt8) : Bool := 48 ≤ c && c ≤ 57

end Ascii
