import ConstantCatalog.Text.Lines
import ConstantCatalog.BlockText.Line

/-! # Reading block text

The reader goes through the lines of a text and is at any time either between two blocks or inside
one. Its state holds what the comments so far say about the next block or member, and nothing else
about the lines it has passed. -/

namespace ConstantCatalog.BlockText
set_option autoImplicit false
open Text

inductive Mode where
  /-- Between blocks, with what provides the next block if a comment told. -/
  | outside (pending : Option Availability)
  /-- In the block that was opened on the given line, with what the comments since its last member
  say about the next one. -/
  | inside (block : Block) (openedAt : Nat) (pending : Option Availability)
      (deprecation : Deprecation)
  deriving DecidableEq

namespace Mode

/-- Where reading starts, and where it is after every closing line. -/
def start : Mode := .outside none

def tag (a : Availability) : Mode → Mode
  | outside _ => .outside (some a)
  | inside block openedAt _ deprecation => .inside block openedAt (some a) deprecation

/-- A comment about the deprecation of the next member; between blocks there is none. -/
def note (d : Deprecation) : Mode → Mode
  | outside pending => .outside pending
  | inside block openedAt pending _ => .inside block openedAt pending d

/-- An opening line, which needs a name and, before it, a comment that tells what provides it. -/
def opening (number : Nat) (name : List Char) : Mode → Except Malformation Mode
  | outside pending =>
    if !isIdentifier name then .error (.badEnumerationName (String.ofList name))
    else match pending with
      | none => .error (.untagged (String.ofList name))
      | some availability =>
        .ok (.inside ⟨String.ofList name, availability, []⟩ number none .absent)
  | inside block .. => .error (.nested (String.ofList name) block.name)

/-- A closing line, which repeats the name of the block and completes it. -/
def closing (name : List Char) : Mode → Except Malformation Block
  | outside _ => .error .strayClosing
  | inside block .. =>
    if String.ofList name = block.name then .ok block
    else .error (.mismatched block.name (String.ofList name))

/-- A declaration, which takes all that the comments said, and is provided by whatever provides its
block unless they said otherwise. -/
def declaration (text : List Char) : Mode → Except Malformation Mode
  | outside _ => .error (.outsideBlock (String.ofList text))
  | inside block openedAt pending deprecation => do
    let (name, rightSide) ← readDeclaration text
    let availability := pending.getD block.availability
    return .inside (block.add ⟨name, rightSide, availability, deprecation⟩) openedAt none .absent

/-- The block completed by a line, if any, and where the reader is after that line. -/
def step (m : Mode) (number : Nat) : Line → Except Malformation (Option Block × Mode)
  | .blank => .ok (none, m)
  | .remark => .ok (none, m)
  | .tag a => .ok (none, m.tag a)
  | .note d => .ok (none, m.note d)
  | .opening name => (m.opening number name).map (none, ·)
  | .closing name => (m.closing name).map (some ·, start)
  | .declaration text => (m.declaration text).map (none, ·)

end Mode

structure Complaint where
  line : Nat
  malformation : Malformation
  deriving DecidableEq

/-- Reads the remaining lines, the first of which has the given number, and gives the blocks they
complete. A block that is still open at the end is reported at its opening line. -/
def readFrom (m : Mode) (number : Nat) : List (List Char) → Except Complaint (List Block)
  | [] =>
    match m with
    | .outside _ => .ok []
    | .inside block openedAt .. => .error ⟨openedAt, .unclosed block.name⟩
  | line :: rest =>
    match m.step number (.ofText line) with
    | .error malformation => .error ⟨number, malformation⟩
    | .ok (completed, next) => (readFrom next (number + 1) rest).map (completed.toList ++ ·)

/-- The blocks of a text. Lines count from one. -/
def blocksOf (text : List Char) : Except Complaint (List Block) :=
  readFrom .start 1 (lines text)

/-- The blocks of a text; the name of its source serves to report faults only. -/
def read (source text : String) : Except Fault (List Block) :=
  (blocksOf text.toList).mapError fun c => .malformed source c.line c.malformation

end ConstantCatalog.BlockText
