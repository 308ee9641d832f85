import ConstantCatalog.Text.Blank
import ConstantCatalog.Text.Split
import ConstantCatalog.Block
import ConstantCatalog.Fault
import ConstantCatalog.BlockText.Literal

/-! # Lines of block text

What a single line says, whatever stands around it. The blanks at its ends never matter. A line that
is none of blank, comment, opening or closing is taken for a declaration, and `readDeclaration`
decides whether it is one. -/

namespace ConstantCatalog.BlockText
set_option autoImplicit false
open Text

/-- A letter or an underscore, followed by letters, digits and underscores, all of them ASCII. -/
def isIdentifier : List Char → Bool
  | [] => false
  | c :: s => (c.isAlpha || c == '_') && s.all fun d => d.isAlphanum || d == '_'

/-- What a line says. -/
inductive Line where
  | blank
  /-- A comment that tells what provides the next block or member. -/
  | tag (availability : Availability)
  /-- A comment that marks the next member as deprecated. -/
  | note (deprecation : Deprecation)
  /-- Any other comment. -/
  | remark
  | opening (name : List Char)
  | closing (name : List Char)
  /-- Anything else, without the blanks at its ends. -/
  | declaration (text : List Char)
  deriving DecidableEq

namespace Line

def noteIn? (comment : List Char) : Option Deprecation :=
  if occursIn "is a deprecated alias".toList comment then some .renamed
  else if occursIn "is deprecated".toList comment then some .unexplained
  else none

/-- What a comment says; a tag is never read as a note. -/
def ofComment (comment : List Char) : Line :=
  match "Provided by ".toList.isPrefixOf? comment with
  | some text => .tag (.ofTag (String.ofList text))
  | none =>
    match noteIn? comment with
    | some deprecation => .note deprecation
    | none => .remark

/-- The name in the rest of a line, where any number of the character `mark` may follow it. -/
def nameBefore (mark : Char) (rest : List Char) : List Char :=
  trim (dropEndWhile (· == mark) (trim rest))

def ofTrimmed (line : List Char) : Line :=
  if line = [] then .blank
  else match "//".toList.isPrefixOf? line with
  | some comment => ofComment (trim comment)
  | none =>
    match "typedef enum".toList.isPrefixOf? line with
    | some rest => .opening (nameBefore '{' rest)
    | none =>
      match ['}'].isPrefixOf? line with
      | some rest => .closing (nameBefore ';' rest)
      | none => .declaration line

def ofText (line : List Char) : Line :=
  ofTrimmed (trim line)

end Line

/-- Reads the name and the right side of a declaration. Commas at its end separate it from the next
one, and its first equals sign separates the two sides. -/
def readDeclaration (text : List Char) : Except Malformation (String × RightSide) :=
  let text := trim (dropEndWhile (· == ',') text)
  match cut? '=' [] text with
  | none => .error (.noAssignment (String.ofList text))
  | some (left, right) =>
    let name := trim left
    let value := trim right
    if !isIdentifier name then .error (.badMemberName (String.ofList name))
    else if isIdentifier value then
      .ok (String.ofList name, .reference (String.ofList value))
    else match Literal.read? value with
      | some literal => .ok (String.ofList name, .literal literal)
      | none => .error (.badValue (String.ofList value) (String.ofList name))

end ConstantCatalog.BlockText
