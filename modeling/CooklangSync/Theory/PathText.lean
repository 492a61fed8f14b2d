import CooklangSync.Theory.FileTree
import CooklangSync.Theory.Text

/-!
# PathText — paths written as strings

File names are byte strings; a program that spells a path as a string spells its names in UTF-8.
-/

namespace CooklangSync.Theory

abbrev Name := Bytes

/-- The path a string spells. -/
def parsePath (path : Text) : Path Name where
  absolute := path.head? = some '/'
  comps := (path.splitOn '/').filterMap fun piece ↦
    if piece = [] ∨ piece = ['.'] then none
    else if piece = ['.', '.'] then some .parent
    else some (.normal (toUtf8 piece))
  trailing := (path.splitOn '/').getLastD [] = [] ∨ (path.splitOn '/').getLastD [] = ['.']

end CooklangSync.Theory
