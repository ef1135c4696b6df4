/-
# Cutting texts

`textLines` cuts a text at its line ends, which are line feeds with an optional
carriage return before them; a line end at the very end opens no further line.
`splitAt` cuts at every separator.

Key definitions: `textLines`, `splitAt`.
-/
namespace MapReduce

/-- The lines of a text whose current line, reversed, is `line`. -/
def linesFrom (line : List Char) : List Char → List String
  | [] => if line.isEmpty then [] else [String.ofList line.reverse]
  | c :: cs =>
    if c = '\n' then
      let body := match line with
        | '\r' :: rest => rest
        | _ => line
      String.ofList body.reverse :: linesFrom [] cs
    else linesFrom (c :: line) cs

/-- The lines of a text. -/
def textLines (s : String) : List String := linesFrom [] s.toList

/-- The pieces of a text between separators; one more than there are
separators. -/
def piecesAt (sep : Char) : List Char → List (List Char)
  | [] => [[]]
  | c :: cs =>
    if c = sep then [] :: piecesAt sep cs
    else match piecesAt sep cs with
      | [] => [[c]]
      | p :: ps => (c :: p) :: ps

/-- The pieces of a text between separators, as texts. -/
def splitAt (sep : Char) (s : String) : List String := (piecesAt sep s.toList).map String.ofList

/-- What follows the last separator of a text; all of it if there is none. -/
def afterLast (sep : Char) (s : String) : String :=
  String.ofList (s.toList.reverse.takeWhile (fun c => c != sep)).reverse

end MapReduce
