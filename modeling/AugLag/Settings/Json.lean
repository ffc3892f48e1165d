import AugLag.Json.Writer
import AugLag.Scalar.Machine
import AugLag.Settings.Basic

/-! Settings as JSON: a record in which a missing setting takes its default. Reading does not validate. -/
namespace AugLag

variable {T : Type} [Scalar T] [Json.Numeral T]

/-- Counts fit into 32 bits. -/
def SettingKind.readJson : (k : SettingKind) → Json.Reader (k.Value T)
  | .count => Json.natBelow UInt32.size
  | .real => (Json.numeral : Json.Reader T)
  | .time => (Json.numeral : Json.Reader Float)
  | .flag => Json.bool
  | .method => do return Method.ofString (← Json.string)

def SettingKind.writeJson : (k : SettingKind) → k.Value T → List Char
  | .count, n => Json.writeNat n
  | .real, (x : T) => Json.Numeral.write x
  | .time, (x : Float) => Json.Numeral.write x
  | .flag, b => Json.writeBool b
  | .method, m => Json.writeString m.toString

namespace Settings

def jsonFields : Json.Fields (Settings T) where
  names := Setting.all.map Setting.name
  read name c :=
    match Setting.ofName? name with
    | some s => do return c.set s (← s.kind.readJson)
    | none => throw .invalid

def readJson : Json.Reader (Settings T) := do return (← jsonFields.record Settings.default).2

def writeJson (c : Settings T) : List Char :=
  Json.writeObject (Setting.all.map fun s => (s.name, s.kind.writeJson (c.get s)))

end Settings
end AugLag
