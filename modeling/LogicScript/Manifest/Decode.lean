import LogicScript.Manifest
import LogicScript.Yaml.Reader

/-! Settings in YAML texts.

Settings are mappings with fixed names. A null leaves a setting as it is; a name that is unknown or
repeated, and a value that does not fit, make the whole text invalid. -/
namespace LogicScript
namespace Settings

/-- A text setting takes the text of any scalar. -/
def textOf : Yaml.Datum → Option (Option String)
  | .scalar value text => some (Yaml.keyName? text value)
  | _ => none

/-- The integer toward zero of a double. What becomes of one of more than 64 bits is left to the
processor; on amd64 it is the least integer. -/
def truncate (x : Binary64) : Int64 :=
  ((Binary64.truncate? x).bind Word64.signed?).getD Int64.minValue

/-- An integer setting takes integers of 64 bits, and doubles that are not beyond them. -/
def integerOf : Yaml.Datum → Option (Option Int64)
  | .scalar .null _ => some none
  | .scalar (.number (.int i)) _ => some (some i)
  | .scalar (.number (.float x)) _ =>
    if x.lessEq (Binary64.ofInt Word64.signedLimit) then some (some (truncate x)) else none
  | _ => none

def onWords : List String := ["y", "Y", "yes", "Yes", "YES", "on", "On", "ON"]

def offWords : List String := ["n", "N", "no", "No", "NO", "off", "Off", "OFF"]

/-- A switch takes truth values, and some words. -/
def switchOf : Yaml.Datum → Option (Option Bool)
  | .scalar .null _ => some none
  | .scalar (.bool b) _ => some (some b)
  | .scalar (.text word) _ =>
    if onWords.contains word then some (some true)
    else if offWords.contains word then some (some false)
    else none
  | _ => none

abbrev Setter := Yaml.Datum → Settings → Option Settings

/-- Applies a setter to every entry of a mapping, chosen by the name of the entry. Null is an empty
mapping. -/
def applyFields (setter : String → Option Setter) : Setter
  | .mapping entries, s =>
    if (entries.map (·.1)).Nodup then
      entries.foldlM (fun s (name, d) => (setter name).bind (· d s)) s
    else none
  | .scalar .null _, s => some s
  | _, _ => none

def log : Setter :=
  applyFields fun
    | "level" => some fun v s => (textOf v).map fun x => { s with level := x.getD s.level }
    | "format" => some fun v s => (textOf v).map fun x => { s with format := x.getD s.format }
    | _ => none

def resolution : Setter :=
  applyFields fun
    | "max_depth" =>
      some fun v s => (integerOf v).map fun x => { s with maxDepth := x.getD s.maxDepth }
    | _ => none

def output : Setter :=
  applyFields fun
    | "print_result" =>
      some fun v s => (switchOf v).map fun x => { s with printResult := x.getD s.printResult }
    | _ => none

def document : Setter :=
  applyFields fun
    | "name" => some fun v s => (textOf v).map fun x => { s with name := x.getD s.name }
    | "entry" => some fun v s => (textOf v).map fun x => { s with entry := x.getD s.entry }
    | "log" => some log
    | "resolution" => some resolution
    | "output" => some output
    | _ => none

/-- The settings in a YAML text: `none` if it is invalid, and `some none` if it has no document.
The keys of the text and of its sections are names. -/
def ofYaml? (text : String) : Option (Option Settings) :=
  match Yaml.read 2 text with
  | none => none
  | some none => some none
  | some (some d) => (document d {}).map some

end Settings
end LogicScript
