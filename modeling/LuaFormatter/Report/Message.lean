import LuaFormatter.Parse.Fault
import LuaFormatter.Report.Styled

/-!
# Messages

An error for the user: a title, what has gone wrong, and a hint how to mend it.
-/

namespace LuaFormatter

/-- An error for the user. An empty body is not shown. -/
structure Message where
  title : String
  body : String := ""
  hint : Option String := none

namespace Message

/-- The message about a fault. -/
def ofFault (fault : Fault) : Message where
  title := fault.title
  body := fault.message

/-- The text of a message, every line with its end. -/
def styled (message : Message) : Styled :=
  let title : Styled :=
    [⟨.boldRed, "✕ Error"⟩, ⟨.bold, ":"⟩, ⟨.plain, " "⟩, ⟨.bold, message.title⟩, ⟨.plain, "\n"⟩]
  let body : Styled :=
    if message.body.isEmpty then [] else [⟨.plain, message.body ++ "\n"⟩]
  let hint : Styled :=
    match message.hint with
    | some hint => [⟨.italicCyan, "hint:"⟩, ⟨.plain, " " ++ hint ++ "\n"⟩]
    | none => []
  title ++ body ++ hint

end Message

end LuaFormatter
