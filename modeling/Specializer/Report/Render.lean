import Specializer.Report.Basic
import Specializer.Text.Lines

set_option autoImplicit false

namespace Specializer

namespace Ansi

def reset : String := "\x1b[0m"
def bold : String := "\x1b[1m"
def dim : String := "\x1b[2m"
def red : String := "\x1b[31m"
def yellow : String := "\x1b[33m"
def cyan : String := "\x1b[36m"
def gray : String := "\x1b[90m"

def styled (color : Bool) (style text : String) : String :=
  if color then style ++ text ++ reset else text

end Ansi

structure Style where
  color : Bool
  guides : Bool
deriving DecidableEq, Repr

namespace Diagnostic

open Ansi

def sentence (message : String) : String :=
  if message.toList.getLast? = some '.' then message else message ++ "."

def tint (item : Diagnostic) : String :=
  match item.severity with
  | .error => red
  | .warning => yellow

def location (item : Diagnostic) (filename : String) : String :=
  let file := if item.filename.isEmpty then filename else item.filename
  let place := match item.span with
    | some span => file ++ ":" ++ toString span.line ++ ":" ++ toString span.col
    | none => file
  match item.context with
  | some context => if context.isEmpty then place else place ++ " (" ++ context ++ ")"
  | none => place

def headline (item : Diagnostic) (filename : String) (color : Bool) : String :=
  let severity := if color then bold ++ styled true item.tint item.severity.label
    else item.severity.label
  styled color cyan (item.location filename) ++ ": " ++ severity ++ " [" ++
    styled color dim item.code ++ "]: " ++ sentence item.message

def sourceLine (lines : List (List Char)) (span : Span) : List Char :=
  if 1 ≤ span.line then (lines[(span.line - 1).toNat]?).getD [] else []

def markerStart (span : Span) : Nat := (max 1 span.col).toNat

def markerWidth (span : Span) : Nat :=
  if span.endLine = span.line then (max 1 (span.endCol - markerStart span)).toNat else 1

def snippet (item : Diagnostic) (span : Span) (lines : List (List Char)) (style : Style) :
    List String :=
  let text := String.ofList (sourceLine lines span)
  let start := markerStart span
  let width := markerWidth span
  let pad := "".pushn ' ' (start - 1)
  if style.guides then
    let bar := styled style.color gray "  │"
    let guide := styled style.color gray ("  ╰" ++ "".pushn '─' start)
    let marker := pad ++ "┯" ++ "".pushn '━' (width - 1)
    [bar ++ "  " ++ text, bar ++ "  " ++ styled style.color item.tint marker,
     guide ++ styled style.color item.tint "╯"]
  else ["  | " ++ text, "  \x60 " ++ pad ++ "".pushn '^' width]

def lines (item : Diagnostic) (filename : String) (source : Option (List (List Char)))
    (style : Style) : List String :=
  let headline := item.headline filename style.color
  match item.span, source with
  | some span, some source =>
    let lead := if style.guides then styled style.color gray "  ╭──┤ " else ""
    (lead ++ headline) :: item.snippet span source style
  | _, _ => [headline]

end Diagnostic

namespace Report

def render (report : Report) (style : Style) : String :=
  let source := (report.source.filter fun source => !source.isEmpty).map lines
  String.intercalate "\n"
    (report.items.flatMap fun item => item.lines report.filename source style)

def printed (report : Report) (style : Style) : String :=
  let text := report.render style
  if text.isEmpty then "" else text ++ "\n"

end Report

structure Terminal where
  isTerminal : Bool
  isDumb : Bool
  noColor : Bool
  noGuides : Bool

namespace Terminal

def plain : Terminal := ⟨false, false, false, false⟩

def style (terminal : Terminal) (color guides : Option Bool) : Style :=
  let able := terminal.isTerminal && !terminal.isDumb
  ⟨color.getD (able && !terminal.noColor), guides.getD (able && !terminal.noGuides)⟩

end Terminal

end Specializer
