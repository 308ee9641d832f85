import ConstantCatalog.Text.Blank
import ConstantCatalog.Log.Record

/-! # Log filters

Which records are printed. A filter is a list of directives, each a limit for the targets in its
scope; the directive with the longest scope decides. Written out, directives stand between commas as
`LEVEL` or `SCOPE=LEVEL`. -/

namespace ConstantCatalog.Log
set_option autoImplicit false
open Text

/-- The least severe level that is printed; `none` prints nothing. -/
abbrev Limit := Option Level

namespace Limit

/-- The position of a limit; `none` comes before every level. -/
def rank : Limit → Nat
  | none => 0
  | some level => level.rank

def admits (limit : Limit) (level : Level) : Bool :=
  level.rank ≤ rank limit

def name : Limit → String
  | none => "OFF"
  | some level => level.name

def all : List Limit :=
  [none, some .error, some .warn, some .info, some .debug, some .trace]

/-- Reads the name of a limit, in letters of either case. -/
def ofName? (text : List Char) : Option Limit :=
  all.find? fun limit => text.map Char.toUpper == (name limit).toList

end Limit

/-- A limit for some targets: those that start with the scope, or all of them. -/
structure Directive where
  scope : Option String
  limit : Limit
  deriving DecidableEq

namespace Directive

def covers (d : Directive) (target : String) : Bool :=
  match d.scope with
  | none => true
  | some scope => scope.toList.isPrefixOf target.toList

def reach (d : Directive) : Nat :=
  match d.scope with
  | none => 0
  | some scope => scope.length

/-- Reads one directive. A scope alone, or with nothing after its equals sign, admits everything. -/
def read? (text : List Char) : Option Directive :=
  match text.splitOn '=' with
  | [word] =>
    match Limit.ofName? word with
    | some limit => some ⟨none, limit⟩
    | none => some ⟨some (String.ofList word), some .trace⟩
  | [scope, level] =>
    if trim level = [] then some ⟨some (String.ofList scope), some .trace⟩
    else (Limit.ofName? (trim level)).map fun limit => ⟨some (String.ofList scope), limit⟩
  | _ => none

end Directive

/-- The directives in force, at most one for a scope. -/
structure Filter where
  directives : List Directive
  deriving DecidableEq

namespace Filter

def upTo (limit : Limit) : Filter := ⟨[⟨none, limit⟩]⟩

/-- Puts a directive in force, in place of the one for its scope if there is one. -/
def set (f : Filter) (d : Directive) : Filter :=
  if f.directives.any (·.scope == d.scope) then
    ⟨f.directives.map fun old => if old.scope == d.scope then d else old⟩
  else ⟨f.directives ++ [d]⟩

/-- The filter that starts from the limit `info` for all targets. What is no directive is left
out. -/
def ofText (text : String) : Filter :=
  (((text.toList.splitOn ',').map trim).filter (· ≠ [])).filterMap Directive.read?
    |>.foldl set (upTo (some .info))

/-- The directive that decides about a target: the last of those with the longest scope. -/
def directiveFor? (f : Filter) (target : String) : Option Directive :=
  (f.directives.filter (·.covers target)).foldl (fun best d =>
    match best with
    | none => some d
    | some b => if b.reach ≤ d.reach then some d else some b) none

def admits (f : Filter) (r : Record) : Bool :=
  match f.directiveFor? r.target with
  | none => false
  | some d => Limit.admits d.limit r.level

/-- The limit that admits whatever some directive admits. -/
def widest (f : Filter) : Limit :=
  f.directives.foldl (fun widest d =>
    if Limit.rank widest < Limit.rank d.limit then d.limit else widest) none

end Filter

end ConstantCatalog.Log
