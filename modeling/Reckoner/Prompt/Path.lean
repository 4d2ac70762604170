import Reckoner.Evaluation.Basic
import Reckoner.Prompt.Options

/-!
# Paths

A path is a row of parts between slashes. Empty parts and single dots say nothing and are dropped,
so a slash at the end makes no difference. What a path without parts names is a directory, and so is
what a path names that goes up at its end; of any other path the form does not tell
(`Path.namesDirectory`).
-/

namespace Reckoner.Prompt

/-- A path without the parts that say nothing. -/
structure Path where
  /-- Whether the path starts at the root, and not in the working directory. -/
  absolute : Bool
  parts : List String
deriving DecidableEq

namespace Path

/-- Cuts a text at each slash. -/
def cut : List Char → List (List Char)
  | [] => [[]]
  | '/' :: cs => [] :: cut cs
  | c :: cs =>
    match cut cs with
    | [] => [[c]]
    | part :: parts => (c :: part) :: parts

/-- Reads a path. -/
def ofString (s : String) : Path where
  absolute := s.toList.head? = some '/'
  parts := ((cut s.toList).map String.ofList).filter fun part ↦ part ≠ "" && part ≠ "."

/-- Writes a path. -/
def text (p : Path) : String :=
  let parts := "/".intercalate p.parts
  if p.absolute then "/" ++ parts else if p.parts.isEmpty then "." else parts

/-- Whether a path names a directory by its form. -/
def namesDirectory (p : Path) : Bool :=
  p.parts.getLast?.all (· = "..")

end Path

/-- The path of the file for listings, if the options name one. -/
def Options.path? (o : Options) : Option String :=
  match o.irFile with
  | .named s => some (Path.ofString s).text
  | .unset | .unnamed => none

/-- Where listings go by the options. `obstacle?` tells what is known to be in the way at a path,
beside what its form tells. -/
def Options.listings (o : Options) (obstacle? : Path → Option ListingFault) : Destination :=
  match o.irFile with
  | .unset => .nowhere
  | .unnamed => .blocked .unnamed
  | .named s =>
    let p := Path.ofString s
    match obstacle? p with
    | some fault => .blocked fault
    | none => if p.namesDirectory then .blocked .isDirectory else .file

end Reckoner.Prompt
