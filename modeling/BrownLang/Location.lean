import BrownLang.Text.Position
import BrownLang.Text.Blank
import BrownLang.Text.Lines

/-!
# Places in a source file

A location is what a message shows of a place: the file, the line and column,
and the text of the line without the white space around it.

Lines are numbered by line feeds, as everywhere in the language, and the text
is the line of that number in a viewer's sense (`Text.lines`).
-/

namespace BrownLang

structure Location where
  file : String
  line : Nat
  column : Nat
  statement : String
  deriving DecidableEq, Repr, Inhabited

structure Origin where
  file : String
  lines : Array (List Char)

namespace Origin

def ofText (file text : String) : Origin :=
  ⟨file, (Text.lines text.toList).toArray⟩

/-- The stripped text of a line, by its number; empty where there is no such line. -/
def statementAt (o : Origin) (line : Nat) : String :=
  String.ofList (Text.strip (o.lines.getD (line - 1) []))

def locate (o : Origin) (p : Position) : Location :=
  ⟨o.file, p.line, p.column, o.statementAt p.line⟩

end Origin

end BrownLang
