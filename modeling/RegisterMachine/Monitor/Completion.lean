import RegisterMachine.Code.Basic
import RegisterMachine.Text.Blank

/-!
# Completion

Behind the verb `RUN`, the name of an entry can be completed.
-/

namespace RegisterMachine.Monitor

/-- The names that a word can be completed to behind the text before it, in the order of the table, if
there are any. -/
def offers? (entries : List Entry) (before word : List Char) : Option (List String) :=
  if Text.upper (String.ofList (Text.trim before)) = "RUN" then
    match (entries.map (·.name)).filter (word.isPrefixOf ·.toList) with
    | [] => none
    | names => some names
  else none

/-- What stands before the word being typed, and that word. Where a word starts is not the monitor's
rule but that of the editor that reads the line: behind the last space. -/
def splitWord (typed : List Char) : List Char × List Char :=
  let word := (typed.reverse.takeWhile (· ≠ ' ')).reverse
  (typed.take (typed.length - word.length), word)

def completions? (entries : List Entry) (typed : String) : Option (List String) :=
  let (before, word) := splitWord typed.toList
  offers? entries before word

end RegisterMachine.Monitor
