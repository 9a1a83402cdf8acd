import PugWeave.Text.Alphabetic
import PugWeave.Text.Numeric

namespace PugWeave.Text

def isAlphanumeric (c : Char) : Bool := isAlphabetic c || isNumeric c

def isNameChar (c : Char) : Bool := isAlphanumeric c || c = '_' || c = '-'

def apostrophe : Char := '\x27'

def quotationMark : Char := '\x22'

def backtick : Char := '\x60'

def isQuote (c : Char) : Bool := c = apostrophe || c = quotationMark || c = backtick

end PugWeave.Text
