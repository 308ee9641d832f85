import ConstantCatalog.Options
import ConstantCatalog.BlockText.Reader
import ConstantCatalog.Enumeration.Resolve
import ConstantCatalog.Log.Logged
import ConstantCatalog.Catalog.Basic

/-! # Loading

A catalog is built from blocks, one after the other, and only when all of them resolve and their
names differ. Texts are all read before the first block is loaded. -/

namespace ConstantCatalog
set_option autoImplicit false
open Log

def Enumeration.memberEvents (o : Options) (e : Enumeration) : List Event :=
  if o.traceMembers then e.members.map fun c => .resolved e.name c.name c.value else []

/-- Resolves a block and reports every member once all are resolved. -/
def Block.resolveReported (o : Options) (b : Block) : Logged Enumeration := do
  let e ← .ofExcept b.resolve
  .report (e.memberEvents o)
  return e

namespace Catalog

/-- Adds a block to what is loaded. A repeated name is found before anything in the block. -/
def add (o : Options) (c : Catalog) (b : Block) : Logged Catalog := do
  if c.index.contains b.name then
    .ofExcept (.error (.repeatedEnumeration b.name))
  else
    let e ← b.resolveReported o
    .report [.loaded e.name e.size e.aliasCount]
    return ⟨c.enumerations ++ [e], c.index.insert e.name c.enumerations.length⟩

/-- Adds blocks to what is loaded, up to the first one that fails. -/
def addAll (o : Options) (c : Catalog) : List Block → Logged Catalog
  | [] => pure c
  | b :: rest => do
    let c ← c.add o b
    c.addAll o rest

def load (o : Options) (blocks : List Block) : Logged Catalog :=
  addAll o .empty blocks

/-- The blocks of some texts, each with the name of its source, up to the first that does not
read. -/
def readTexts : List (String × String) → Except Fault (List Block)
  | [] => .ok []
  | (source, text) :: rest => do
    let blocks ← BlockText.read source text
    let more ← readTexts rest
    return blocks ++ more

def ofTexts (o : Options) (texts : List (String × String)) : Logged Catalog := do
  let blocks ← .ofExcept (readTexts texts)
  load o blocks

end Catalog

end ConstantCatalog
