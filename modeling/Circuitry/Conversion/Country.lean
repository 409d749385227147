/-!
# Country codes

The two-letter and the numeric codes of the countries that the conversion graph knows. Codes
outside the table are refused.
-/

namespace Circuitry.Country

/-- The codes of the known countries, in increasing order of the two-letter codes. -/
def codes : Array (String × UInt16) := #[
  ("AE", 784), ("AM", 51), ("AR", 32), ("AT", 40), ("AU", 36), ("BE", 56), ("BR", 76),
  ("BY", 112), ("CA", 124), ("CH", 756), ("CL", 152), ("CN", 156), ("CO", 170), ("CZ", 203),
  ("DE", 276), ("DK", 208), ("EG", 818), ("ES", 724), ("FI", 246), ("FR", 250), ("GB", 826),
  ("GE", 268), ("GR", 300), ("HK", 344), ("ID", 360), ("IE", 372), ("IL", 376), ("IN", 356),
  ("IT", 380), ("JP", 392), ("KR", 410), ("KZ", 398), ("MX", 484), ("NG", 566), ("NL", 528),
  ("NO", 578), ("NZ", 554), ("PE", 604), ("PH", 608), ("PL", 616), ("PT", 620), ("RU", 643),
  ("SA", 682), ("SE", 752), ("SG", 702), ("TH", 764), ("TR", 792), ("UA", 804), ("US", 840),
  ("VN", 704), ("ZA", 710)]

/-- Looks for `code` among the entries from `low` up to `high` by halving. -/
def search (table : Array (String × UInt16)) (code : String) (low high : Nat) : Option UInt16 :=
  if _h : low < high then
    let middle := (low + high) / 2
    match table[middle]? with
    | none => none
    | some (found, number) =>
      if found = code then some number
      else if found < code then search table code (middle + 1) high
      else search table code low middle
  else none
termination_by high - low

def numeric? (code : String) : Option UInt16 :=
  search codes code 0 codes.size

def isNumeric (number : UInt16) : Bool :=
  codes.any fun entry => entry.2 == number

end Circuitry.Country
