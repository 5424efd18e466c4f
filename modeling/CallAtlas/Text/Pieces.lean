/-!
# Pieces of a text

Cutting a text at every occurrence of one character.
-/

namespace CallAtlas.Text

/-- Puts a character in front of the first piece, or starts a new piece at a separator. -/
def addToPieces (separator c : Char) (ps : List (List Char)) : List (List Char) :=
  if c = separator then [] :: ps
  else match ps with
    | [] => [[c]]
    | p :: ps => (c :: p) :: ps

/-- The pieces of a text between the separators, one more than there are separators. -/
def pieces (separator : Char) (cs : List Char) : List (List Char) :=
  cs.foldr (addToPieces separator) [[]]

end CallAtlas.Text
