import DivisionMicrocode.Log.Level
import DivisionMicrocode.Text.WhiteSpace
/-!
# Filters

A filter says which records are wanted. It is written as directives separated by commas, such as
`info,divider_state=trace`: a threshold alone holds for all targets, and a threshold after a name
holds for the targets that begin with the name, where the longest name decides. A text after a
slash is a pattern that the wanted records match. How a pattern is written and what it matches is
left open: a filter is read with a reader of patterns.
-/

namespace DivisionMicrocode.Log

/-- What a logger is handed. -/
structure Record where
  level : Level
  target : String
  text : String
deriving DecidableEq

/-- The threshold of some targets. -/
structure Directive where
  /-- How the targets begin; none holds for all targets, and is not the same as an empty name. -/
  name : Option (List Char)
  threshold : Threshold
deriving DecidableEq

namespace Directive

/-- The directive without a level after its name. -/
def everything (name : List Char) : Directive := ⟨some name, .upTo .trace⟩

/-- Reads one directive, from which the blanks at its ends are gone. A name alone, or with
nothing after its equals sign, wants everything; any other directive with a fault counts for
nothing. -/
def ofItem? (item : List Char) : Option Directive :=
  match item.splitOn '=' with
  | [name] =>
    match Threshold.ofList? name with
    | some t => some ⟨none, t⟩
    | none => some (everything name)
  | [name, level] =>
    if (Text.trim level).isEmpty then
      some (everything name)
    else
      (Threshold.ofList? (Text.trim level)).map (⟨some name, ·⟩)
  | _ => none

def size (d : Directive) : Nat := (d.name.map (String.ofList · |>.utf8ByteSize)).getD 0

def appliesTo (d : Directive) (target : String) : Bool :=
  match d.name with
  | none => true
  | some name => name.isPrefixOf target.toList

/-- Adds a directive, in place of one with the same name. -/
def insert (ds : List Directive) (d : Directive) : List Directive :=
  if ds.any (·.name == d.name) then
    ds.map (fun e => if e.name == d.name then d else e)
  else
    ds ++ [d]

end Directive

/-- The texts that match a pattern. -/
abbrev Pattern := String → Bool

/-- Which records are wanted. -/
structure Filter where
  /-- The directives; the last one that holds for a target decides. -/
  directives : List Directive
  /-- What the text of a wanted record matches. -/
  pattern : Option Pattern

namespace Filter

/-- The directives of a text without slashes. -/
def readDirectives (cs : List Char) : List Directive :=
  ((cs.splitOn ',').map Text.trim).filter (!·.isEmpty) |>.filterMap Directive.ofItem?

/-- The directives and the pattern of a text. What cannot be read as a pattern counts for nothing,
and a text with a second slash has neither. -/
def readText (readPattern : String → Option Pattern) (cs : List Char) :
    List Directive × Option Pattern :=
  match cs.splitOn '/' with
  | [ds] => (readDirectives ds, none)
  | [ds, pattern] => (readDirectives ds, readPattern (String.ofList pattern))
  | _ => ([], none)

/-- Puts directives in order of their names' lengths, and errors for all targets if there are no
directives. -/
def arrange (ds : List Directive) : List Directive :=
  if ds.isEmpty then
    [⟨none, .upTo .error⟩]
  else
    ds.mergeSort (fun a b => a.size ≤ b.size)

/-- The filter of several texts, each of which adds to the directives of those before it and has
the last word on the pattern. -/
def ofTexts (readPattern : String → Option Pattern) (texts : List String) : Filter :=
  let read := texts.map (fun s => readText readPattern s.toList)
  { directives := arrange ((read.flatMap (·.1)).foldl Directive.insert [])
    pattern := read.getLast?.bind (·.2) }

/-- The threshold of a target, if a directive holds for it. -/
def threshold? (f : Filter) (target : String) : Option Threshold :=
  (f.directives.reverse.find? (·.appliesTo target)).map (·.threshold)

/-- Whether records of a level and a target are wanted, as far as their text allows. -/
def enabled (f : Filter) (level : Level) (target : String) : Bool :=
  ((f.threshold? target).map (·.admits level)).getD false

def accepts (f : Filter) (r : Record) : Bool :=
  f.enabled r.level r.target && f.pattern.all (· r.text)

/-- The threshold that admits all levels that some directive admits. -/
def maxThreshold (f : Filter) : Threshold :=
  f.directives.foldl (fun t d => t.max d.threshold) .off

end Filter

end DivisionMicrocode.Log
