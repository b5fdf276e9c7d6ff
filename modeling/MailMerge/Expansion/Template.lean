import MailMerge.Expansion.Conditional
import MailMerge.Expansion.Placeholder
import MailMerge.Expansion.Table

/-!
# Expanding a template

A template is expanded in four passes over its text: loops, conditionals, table rows, placeholders.
Each pass reads the tags of the text that the one before has left.
-/

namespace MailMerge

/-- What comes of a template. -/
def expand (data : DataTree) (options : Options) (template : List Char) : Expansion :=
  let looped := expandLoops data options (tokens options.window template)
  let decided := expandConditionals data (tokens options.window looped.text)
  let tabled := expandTables data options decided.text
  let filled := expandPlaceholders data options 0 (tokens options.window tabled.text)
  looped.withoutText ++ decided.withoutText ++ tabled.withoutText ++ filled

end MailMerge
