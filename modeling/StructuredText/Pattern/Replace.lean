import StructuredText.Pattern.Template
import StructuredText.Replacement

/-!
# Replacing matches outside literals

The matches of a pattern that meet no literal are replaced by what a template makes of them. A
template is read only if there is a match to replace, so its faults show only then.
-/

namespace StructuredText.Pattern

/-- Replaces the matches that meet none of the spans, by a function of the match. -/
def replaceOutside (pattern : Pattern) (spans : List Literal.Span) (write : Found → List Char)
    (text : List Char) : List Char :=
  StructuredText.replaceOutside (pattern.recognize text.length) spans write text

/-- Replaces the matches that meet none of the spans, by a template. -/
def expandOutside (parsed : Parsed) (spans : List Literal.Span) (template : List Char)
    (text : List Char) : Except TemplateFault (List Char) :=
  if (freeOccurrences (parsed.pattern.recognize text.length) spans text).isEmpty then .ok text
  else do
    let parts ← Template.parse parsed template
    return parsed.pattern.replaceOutside spans (Template.expand parts) text

end StructuredText.Pattern
