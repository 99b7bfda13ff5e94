import LogicScript.Machine

/-! Log entries: what is reported beside the output. -/
namespace LogicScript

namespace Log

inductive Level
  | debug | info | warn | error
  deriving DecidableEq, Repr

namespace Level

def all : List Level := [.debug, .info, .warn, .error]

def name : Level → String
  | .debug => "debug"
  | .info => "info"
  | .warn => "warn"
  | .error => "error"

def capitalName : Level → String
  | .debug => "DEBUG"
  | .info => "INFO"
  | .warn => "WARN"
  | .error => "ERROR"

def ofName? (s : String) : Option Level := all.find? (·.name = s)

/-- How grave a level is. -/
def weight : Level → Nat
  | .debug => 0
  | .info => 1
  | .warn => 2
  | .error => 3

theorem ofName?_name (l : Level) : ofName? l.name = some l := by
  cases l <;> decide

end Level

inductive Format
  | console | json
  deriving DecidableEq, Repr

namespace Format

def name : Format → String
  | .console => "console"
  | .json => "json"

def ofName? (s : String) : Option Format := [Format.console, .json].find? (·.name = s)

theorem ofName?_name (f : Format) : ofName? f.name = some f := by
  cases f <;> decide

def level (f : Format) (l : Level) : String :=
  match f with
  | .console => l.capitalName
  | .json => l.name

end Format

inductive Item
  | text (value : String)
  | count (value : Nat)
  | flag (value : Bool)
  deriving DecidableEq, Repr

structure Entry where
  level : Level
  message : String
  fields : List (String × Item) := []
  deriving DecidableEq, Repr

/-- The report of an event of a run. -/
def Entry.ofEvent (e : Event) : Entry :=
  match e with
  | .atomDeclared name => ⟨.debug, "atom declared", [("atom", .text name)]⟩
  | .factDeclared functor arity =>
    ⟨.debug, "fact declared", [("functor", .text functor), ("arity", .count arity)]⟩
  | .ruleRegistered functor arity =>
    ⟨.debug, "rule registered", [("functor", .text functor), ("arity", .count arity)]⟩
  | .queryResolved target result =>
    ⟨.debug, "query resolved", [("target", .text target), ("result", .flag result)]⟩
  | .bound name value =>
    ⟨.debug, "unification bound", [("name", .text name), ("value", .text value)]⟩
  | .called function args =>
    ⟨.debug, "call", [("function", .text function), ("args", .count args)]⟩
  | .finished returned value =>
    ⟨.debug, "program finished", [("returned", .flag returned), ("value", .text value)]⟩

def kept (least : Level) (entries : List Entry) : List Entry :=
  entries.filter fun e => least.weight ≤ e.level.weight

end Log
end LogicScript
