import Harbour.Library.Bytes

/-!
Classes of characters that no code page has a part in.
-/

namespace Harbour.Common.CharClass

def HB_ISSPACE (c : UInt8) : Bool := c = 32 || c = 9 || c = 10 || c = 13

def HB_TOUPPER (c : UInt8) : UInt8 := if 97 ≤ c ∧ c ≤ 122 then c - 32 else c

end Harbour.Common.CharClass
