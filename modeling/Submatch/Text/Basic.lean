/-!
# Written numbers and lists

The few forms in which numbers and lists appear in messages and listings:
lower-case hexadecimal, decimal aligned to a column, and bracketed lists.
-/

namespace Submatch.Text

/-- A number in lower-case hexadecimal behind `0x`. -/
def hex (n : Nat) : String := "0x" ++ String.ofList (Nat.toDigits 16 n)

/-- A number in decimal, right-aligned in `width` columns. -/
def rightAligned (width n : Nat) : String :=
  let digits := Nat.repr n
  String.ofList (List.replicate (width - digits.length) ' ') ++ digits

/-- Items between brackets, with a comma and a blank between neighbours. -/
def bracketed (items : List String) : String := "[" ++ ", ".intercalate items ++ "]"

/-- A bracketed list of decimal numbers. -/
def numbers (ns : List Nat) : String := bracketed (ns.map Nat.repr)

end Submatch.Text
