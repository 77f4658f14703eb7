/-!
# Styled text

Text for a terminal is a sequence of spans, some of which have a style.
Rendered in colour, a styled span stands between the control sequence of its
style and the one that resets the terminal; rendered plainly, it is its text.
-/

namespace OneTape

inductive Style where
  | regular
  | dim
  | green
  | yellow
  | magenta
  | cyan
  deriving DecidableEq

namespace Style

/-- The parameter of the control sequence that selects a style. -/
def parameter : Style → String
  | regular => "0"
  | dim => "2"
  | green => "32"
  | yellow => "33"
  | magenta => "35"
  | cyan => "36"

/-- The control sequence that selects a style. -/
def sequence (style : Style) : List Char :=
  '\x1b' :: '[' :: style.parameter.toList ++ ['m']

end Style

/-- A piece of text in one style, or in none. -/
structure Span where
  style : Option Style := none
  text : List Char
  deriving DecidableEq

namespace Span

/-- The characters of a span, with control sequences if it is coloured. -/
def render (colored : Bool) (span : Span) : List Char :=
  match colored, span.style with
  | true, some style => style.sequence ++ span.text ++ Style.regular.sequence
  | _, _ => span.text

@[simp]
theorem render_plain (span : Span) : span.render false = span.text := by
  simp [render]

end Span

/-- The characters of a sequence of spans. -/
def renderSpans (colored : Bool) (spans : List Span) : List Char :=
  spans.flatMap (Span.render colored)

end OneTape
