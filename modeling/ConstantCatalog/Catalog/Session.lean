import ConstantCatalog.Binding.Agreement
import ConstantCatalog.Cursor
import ConstantCatalog.Shipped.Bindings

/-! # Sessions

All the questions that a catalog answers, as data, and the answering of several in a row. A question
leaves nothing behind for the next one but its events. -/

namespace ConstantCatalog
set_option autoImplicit false
open Log

inductive Query where
  | names
  | size
  | enumerations
  | enumeration (name : String)
  | value (enumeration member : String)
  | canonicalName (enumeration member : String)
  | member (enumeration member : String)
  | memberNames (enumeration : String)
  | memberValues (enumeration : String)
  | members (enumeration : String)
  | canonicalNames (enumeration : String)
  | contains (enumeration member : String)
  | withValue (enumeration : String) (value : Int32)
  | canonicalWithValue (enumeration : String) (value : Int32)
  | flagNames (enumeration : String) (mask : UInt32)
  | mentions (enumeration member extension : String)
  | tour (enumeration : String) (moves : List Move)
  | check (binding : Binding)
  | checkShipped
  | variant (binding : Binding) (member : String)

inductive Answer where
  | names (names : List String)
  | size (n : Nat) (empty : Bool)
  | enumerations (es : List Enumeration)
  | enumeration (e : Enumeration)
  | value (v : Int32)
  | name (name : String)
  | name? (name : Option String)
  | member (c : Constant)
  | values (vs : List Int32)
  | members (cs : List Constant)
  | truth (b : Bool)
  | replies (rs : List (Reply String))
  | agreed
  | variant (v : Variant)
  deriving DecidableEq

namespace Catalog

def ask (o : Options) (c : Catalog) : Query → Logged Answer
  | .names => pure (.names c.names)
  | .size => pure (.size c.size c.isEmpty)
  | .enumerations => pure (.enumerations c.enumerations)
  | .enumeration e => .ofExcept ((c.enumeration e).map .enumeration)
  | .value e m => Answer.value <$> c.value o e m
  | .canonicalName e m => Answer.name <$> c.canonicalName o e m
  | .member e m => Answer.member <$> c.member o e m
  | .memberNames e => .ofExcept ((c.enumeration e).map fun e => .names (e.members.map (·.name)))
  | .memberValues e => .ofExcept ((c.enumeration e).map fun e => .values (e.members.map (·.value)))
  | .members e => .ofExcept ((c.enumeration e).map fun e => .members e.members)
  | .canonicalNames e =>
    .ofExcept ((c.enumeration e).map fun e => .names (e.canonicalMembers.map (·.name)))
  | .contains e m => .ofExcept ((c.enumeration e).map fun e => .truth (e.contains m))
  | .withValue e v => .ofExcept ((c.withValue e v).map fun ms => .names (ms.map (·.name)))
  | .canonicalWithValue e v => .ofExcept ((c.canonicalWithValue? e v).map .name?)
  | .flagNames e mask => .ofExcept ((c.flagNames e mask).map .names)
  | .mentions e m x => Answer.truth <$> c.mentions o e m x
  | .tour e moves =>
    .ofExcept ((c.enumeration e).map fun e =>
      .replies ((Tour.start (e.members.map (·.name))).replies moves))
  | .check b => .ofExcept ((b.check c).map fun _ => .agreed)
  | .checkShipped => .ofExcept ((Binding.checkAll c Shipped.bindings).map fun _ => .agreed)
  | .variant b m => Answer.variant <$> b.ofName o c m

/-- Answers questions in order: the outcome of each, and the events of all. -/
def askAll (o : Options) (c : Catalog) (qs : List Query) :
    List (Except Fault Answer) × List Event :=
  (qs.map fun q => (c.ask o q).outcome, qs.flatMap fun q => (c.ask o q).events)

end Catalog

end ConstantCatalog
