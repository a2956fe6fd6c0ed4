/-! # Blank characters

White space as the readers of this library understand it: the twenty-five code points that Unicode
gives the property `White_Space`. Trimming and splitting into fields follow the same class. -/

namespace Verdict.Text

/-- The code points of Unicode white space. -/
def isBlank (c : Char) : Bool :=
  let n := c.toNat
  (9 ≤ n && n ≤ 13) || n == 0x20 || n == 0x85 || n == 0xA0 || n == 0x1680 ||
    (0x2000 ≤ n && n ≤ 0x200A) || n == 0x2028 || n == 0x2029 || n == 0x202F || n == 0x205F ||
    n == 0x3000

/-- Drops the blanks at both ends. -/
def trim (s : String) : String :=
  String.ofList (((s.toList.dropWhile isBlank).reverse.dropWhile isBlank).reverse)

/-- The runs of characters between blanks, `word` being the run read so far (in reverse). -/
def fieldsFrom (word : List Char) : List Char → List String
  | [] => if word.isEmpty then [] else [String.ofList word.reverse]
  | c :: cs =>
    if isBlank c then
      if word.isEmpty then fieldsFrom [] cs else String.ofList word.reverse :: fieldsFrom [] cs
    else fieldsFrom (c :: word) cs

/-- The fields of a text: its longest runs of characters that are not blank. -/
def fields (s : String) : List String := fieldsFrom [] s.toList

end Verdict.Text
