import Asm8.Diagnostic
import Asm8.Report.Style
import Asm8.Text.Lines

/-!
Diagnostics for the terminal, with the source line they are about.

The source line is found among the lines that end in LF. A line number past the end shows an empty
line, and so does an empty source.
-/

namespace Asm8

/-- A headline in the alarm style. -/
def alarmLine (word message : String) : String :=
  Style.alarm.paint word ++ ": " ++ message ++ "\n"

/-- The source line with a number; zero stands for the first line. -/
def excerptLine (source : String) (line : Nat) : String :=
  ((Text.lines source)[line - 1]?).getD ""

/-- A diagnostic with its place and the line it is about. -/
def Diagnostic.excerpt (d : Diagnostic) (file source : String) : String :=
  let place := s!"{file}:{d.line}"
  let number := String.ofList (Text.padLeft 4 ' ' (toString d.line).toList)
  let bar := "      " ++ Style.blue.paint "|" ++ "\n"
  alarmLine "error" d.cause.message ++
    "     " ++ Style.blue.paint "-->" ++ " " ++ Style.underline.paint place ++ "\n" ++
    bar ++
    " " ++ Style.blue.paint (number ++ " |") ++ " " ++ excerptLine source d.line ++ "\n" ++
    bar

end Asm8
