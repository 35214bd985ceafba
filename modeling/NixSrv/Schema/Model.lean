import NixSrv.Json.Value
import NixSrv.Lib.Dict
import Mathlib.Data.Fintype.Basic
import Mathlib.Logic.Function.Basic

/-!
# The schema generator

`nix.schema.generator`. The fields that a program constructs are numbered, and one that is put into
another or into the schema is kept by its number, as a reference is. A default is a value that
belongs to its field. The text that `json` writes is kept as the value it denotes.

* `FieldType`, `Field`, `initial`: the calls of constructors, and the content they start with;
* `Item`, `Content`, `Memory`: what the fields and the schema contain;
* `Call`, `step`, `build`: the calls that build a schema, which may raise;
* `expand`, `Memory.toJson`: the encoder, which unfolds the fields as it comes to them.
-/

namespace NixSrv.Schema

open Json

/-- The classes of fields. -/
inductive FieldType where
  | int
  | double
  | bool
  | null
  | string
  | array
  | object
  deriving DecidableEq, Repr

/-- `base_type()`, where there is a base type. -/
def FieldType.base : FieldType → Value
  | int => .int 0
  | double => .real 0
  | bool => .bool false
  | null => .null
  | string => .string ""
  | array => .array []
  | object => .object []

/-- A field as it is constructed. -/
structure Field where
  type : FieldType
  ident : String
  allowNull : Bool := false
  default : Option Value := none

/-- The `content` the constructor gives to a field. -/
def Field.initial (f : Field) : Value := if f.allowNull then .null else f.default.getD f.type.base

/-- What can stand in a list or a dictionary: a value, or one of `n` fields. -/
inductive Item (n : ℕ) where
  | value (v : Value)
  | field (f : Fin n)

/-- The `content` of a field. -/
inductive Content (n : ℕ) where
  | scalar (v : Value)
  | list (xs : List (Item n))
  | dict (ms : Dict String (Item n))

def Content.ofValue {n : ℕ} : Value → Content n
  | .array xs => .list (xs.map .value)
  | .object ms => .dict (ms.map fun m => (m.1, .value m.2))
  | v => .scalar v

/-- The contents of the fields, and the `root` of the schema. -/
structure Memory (n : ℕ) where
  content : Fin n → Content n
  root : Dict String (Item n)

/-- What Python raises. -/
inductive PyError where
  | attributeError
  | typeError
  /-- `json` comes to an object that it is writing. -/
  | circularReference
  | recursionError
  deriving DecidableEq, Repr

variable {n : ℕ} (fields : Fin n → Field)

/-! ## Building a schema -/

/-- A call on a field or on the schema. -/
inductive Call (n : ℕ) where
  /-- `c.add_field(f)`. -/
  | addField (c f : Fin n)
  /-- `c.append(*fs)`. -/
  | append (c : Fin n) (fs : List (Fin n))
  /-- `schema.add_field(f)`. -/
  | addToSchema (f : Fin n)
  /-- `schema.set_content(f)`. -/
  | setContent (f : Fin n)

/-- `ComplexField.add_field`, which the other classes do not have. -/
def addField (m : Memory n) (c f : Fin n) : Except PyError (Memory n) :=
  match (fields c).type with
  | .array =>
    match m.content c with
    | .list xs =>
      .ok { m with content := Function.update m.content c (.list (xs ++ [.field f])) }
    | .scalar _ | .dict _ => .error .attributeError
  | .object =>
    match m.content c with
    | .dict ms => .ok { m with
        content := Function.update m.content c (.dict (ms.assign (fields f).ident (.field f))) }
    | .scalar _ | .list _ => .error .typeError
  | _ => .error .attributeError

/-- `Array.append`. -/
def append (m : Memory n) (c : Fin n) (fs : List (Fin n)) : Except PyError (Memory n) :=
  match (fields c).type with
  | .array => fs.foldlM (fun m f => addField fields m c f) m
  | _ => .error .attributeError

def step (m : Memory n) : Call n → Except PyError (Memory n)
  | .addField c f => addField fields m c f
  | .append c fs => append fields m c fs
  | .addToSchema f => .ok { m with root := m.root.assign (fields f).ident (.field f) }
  | .setContent f => .ok { m with root := m.root.assign "content" (.field f) }

/-- `Schema(ident, version)`. -/
def header (ident version : Value) : List (String × Value) :=
  [("@id", ident), ("@version", version), ("content", .object [])]

/-- The constructed fields and the empty schema. -/
def start (ident version : Value) : Memory n where
  content c := .ofValue (fields c).initial
  root := (header ident version).map fun m => (m.1, .value m.2)

/-- The calls one after the other; the first one that raises ends the program. -/
def build (ident version : Value) (calls : List (Call n)) : Except PyError (Memory n) :=
  calls.foldlM (step fields) (start fields ident version)

/-! ## The encoder -/

/-- An item, where `field` writes a field. -/
def encodeItem (field : Fin n → Except PyError Value) : Item n → Except PyError Value
  | .value v => .ok v
  | .field f => field f

def encodeDict (field : Fin n → Except PyError Value) (ms : Dict String (Item n)) :
    Except PyError Value := do
  return .object (← ms.mapM fun m => do return (m.1, ← encodeItem field m.2))

def encodeContent (field : Fin n → Except PyError Value) : Content n → Except PyError Value
  | .scalar v => .ok v
  | .list xs => do return .array (← xs.mapM (encodeItem field))
  | .dict ms => encodeDict field ms

/-- `json` on a field, for which `FieldEncoder.default` gives the content. The markers are the
fields that are being written; `fuel` is the depth that is left on the stack. -/
def expand (content : Fin n → Content n) : ℕ → List (Fin n) → Fin n → Except PyError Value
  | 0, _, _ => .error .recursionError
  | fuel + 1, markers, f =>
    if f ∈ markers then .error .circularReference
    else encodeContent (expand content fuel (f :: markers)) (content f)

/-- `Schema.to_json`. The depth is enough to come to every field on the way. -/
def Memory.toJson (m : Memory n) : Except PyError Value :=
  encodeDict (expand m.content (n + 1) []) m.root

end NixSrv.Schema
