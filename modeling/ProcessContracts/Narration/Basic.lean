import ProcessContracts.Compilation
import ProcessContracts.Narration.Line

/-!
# Diagnostics as read aloud

A diagnostic bound to the source text it is about, and what a handler of reports makes of it. Any
handler will do, and where it fails the diagnostic is given in its own words. The one that runs
writes plain sentences with the lines of source around the region.
-/

namespace ProcessContracts

/-- A diagnostic bound to the source text of its program. -/
structure Narration where
  diagnostic : Diagnostic
  source : Option SourceText
  region : Option Region

namespace Narration

/-- Without a source, or with a span that leaves it, there is nothing to point at. -/
def make (program : Program) (diagnostic : Diagnostic) : Narration :=
  let region := do
    let source ← program.source
    let span ← diagnostic.span
    if span.fits source.size then some ⟨span.start, span.length⟩ else none
  ⟨diagnostic, program.source, region⟩

def label (narration : Narration) : String := narration.diagnostic.code.label

/-- What writes the report about a diagnostic. It may fail. -/
abbrev Handler := Narration → Option String

/-- The report of a handler, or the diagnostic's own text. -/
def render (handler : Handler) (narration : Narration) : String :=
  (handler narration).getD narration.diagnostic.text

end Narration

/-- Every diagnostic of a report in the order of its units. -/
def ProgramReport.render (handler : Narration.Handler) (program : Program)
    (report : ProgramReport) : List String :=
  report.diagnostics.map fun diagnostic => (Narration.make program diagnostic).render handler

/-! ## The handler that runs -/

namespace Narration

/-- The lines around the region; `none` if they cannot be read. -/
def snippet (narration : Narration) : Option String :=
  match narration.source, narration.region with
  | some source, some region => do
      let text := source.text.toList
      let excerpt ← Excerpt.around region text
      let lines := ShownLine.split excerpt.linesBefore excerpt.start [] (excerpt.cut text)
      some (s!"Begin snippet for {source.filename} starting at line {excerpt.linesBefore + 1}, " ++
        "column 1\n\n" ++ String.join (lines.map (·.describe region narration.label)))
  | _, _ => some ""

/-- What there is to say about a diagnostic, in sentences. It fails only where its snippet does. -/
def narratable : Handler := fun narration =>
  let diagnostic := narration.diagnostic
  narration.snippet.map fun snippet =>
    let help := match diagnostic.help with
      | some help => s!"diagnostic help: {help}\n"
      | none => ""
    s!"{diagnostic.message}\n    Diagnostic severity: {diagnostic.severity.text}\n" ++
      snippet ++ help ++ s!"diagnostic code: {diagnostic.code.number}\n"

def text (narration : Narration) : String := narration.render narratable

end Narration

def ProgramReport.narrate (program : Program) (report : ProgramReport) : List String :=
  report.render Narration.narratable program

end ProcessContracts
