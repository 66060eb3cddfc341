/-!
# Lines

Text from outside may end its lines with a line feed, a carriage return, or both.  Inside, a line
ends with a line feed alone.
-/

namespace Lox.Text

/-- Makes every end of a line a line feed. -/
def unifyLineEnds : List Char → List Char
  | '\r' :: '\n' :: r => '\n' :: unifyLineEnds r
  | '\r' :: r => '\n' :: unifyLineEnds r
  | c :: r => c :: unifyLineEnds r
  | [] => []

/-- The text of a file, with unified ends of lines. -/
def ofFile (s : String) : String := String.ofList (unifyLineEnds s.toList)

/-- Splits into lines without their ends.  What follows the last end is a line if it is not
empty. -/
def splitLines : List Char → List (List Char)
  | [] => []
  | '\n' :: r => [] :: splitLines r
  | c :: r =>
    match splitLines r with
    | [] => [[c]]
    | line :: lines => (c :: line) :: lines

/-- The lines typed at a prompt. -/
def lines (s : String) : List String := (splitLines (unifyLineEnds s.toList)).map String.ofList

/-- Lines as they are printed: each is followed by a line feed. -/
def printLines (ls : List String) : String := String.join (ls.map (· ++ "\n"))

end Lox.Text
