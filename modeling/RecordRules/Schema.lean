import RecordRules.Value
import RecordRules.Text.Lexeme

/-!
Schemas: the fields that records may have, with their kinds and sample values.  A schema
exists only if its fields have no fault.
-/

namespace RecordRules

/-- A field with its kind and the sample values of its domain. -/
structure FieldDecl where
  name : String
  kind : Kind
  domain : List Value
deriving DecidableEq

namespace FieldDecl

def boolean (name : String) : FieldDecl :=
  ⟨name, .boolean, []⟩

def string (name : String) (domain : List String) : FieldDecl :=
  ⟨name, .string, domain.map .str⟩

def integer (name : String) (domain : List Int64) : FieldDecl :=
  ⟨name, .integer, domain.map .int⟩

end FieldDecl

/-- What is wrong with a list of fields. -/
inductive SchemaFault where
  | empty
  | duplicateField (field : String)
  | invalidName (field : String)
  | emptyDomain (field : String)
  | booleanDomain (field : String)
  | domainKindMismatch (field : String) (expected found : Kind)
deriving DecidableEq

def SchemaFault.message : SchemaFault → String
  | .empty => "schema has no fields"
  | .duplicateField field => s!"duplicate field name '{field}'"
  | .invalidName field => s!"'{field}' cannot be written as a field name in rule text"
  | .emptyDomain field => s!"field '{field}' needs at least one sample value"
  | .booleanDomain field => s!"boolean field '{field}' must not declare a domain"
  | .domainKindMismatch field expected found =>
      s!"field '{field}' is {expected.label} but its domain holds a {found.label} value"

namespace FieldDecl

/-- What is wrong with the domain.  A boolean field has none; any other has at least one
sample value, and all of its own kind. -/
def domainFault? (f : FieldDecl) : Option SchemaFault :=
  match f.kind with
  | .boolean => if f.domain.isEmpty then none else some (.booleanDomain f.name)
  | kind =>
      if f.domain.isEmpty then
        some (.emptyDomain f.name)
      else
        (f.domain.find? (·.kind ≠ kind)).map fun bad =>
          .domainKindMismatch f.name kind bad.kind

/-- What is wrong with a field that comes after fields of these names. -/
def fault? (earlier : List String) (f : FieldDecl) : Option SchemaFault :=
  if !Lexeme.isName f.name.toList then
    some (.invalidName f.name)
  else if earlier.contains f.name then
    some (.duplicateField f.name)
  else
    f.domainFault?

end FieldDecl

namespace Schema

/-- The first fault of fields that come after fields of these names. -/
def faultFrom? (earlier : List String) : List FieldDecl → Option SchemaFault
  | [] => none
  | f :: fields =>
      match f.fault? earlier with
      | some fault => some fault
      | none => faultFrom? (f.name :: earlier) fields

/-- What is wrong with a list of fields: that it is empty, or the first fault in it. -/
def fault? (fields : List FieldDecl) : Option SchemaFault :=
  if fields.isEmpty then some .empty else faultFrom? [] fields

end Schema

/-- A list of fields without a fault. -/
structure Schema where
  fields : List FieldDecl
  faultless : Schema.fault? fields = none

namespace Schema

def build (fields : List FieldDecl) : Except SchemaFault Schema :=
  match h : fault? fields with
  | some fault => .error fault
  | none => .ok ⟨fields, h⟩

def field? (s : Schema) (name : String) : Option FieldDecl :=
  s.fields.find? (·.name = name)

def size (s : Schema) : Nat :=
  s.fields.length

theorem fields_ne_nil (s : Schema) : s.fields ≠ [] := by
  intro h
  have hfault := s.faultless
  simp [fault?, h] at hfault

theorem size_pos (s : Schema) : 0 < s.size :=
  List.length_pos_iff.2 s.fields_ne_nil

/-- The fields of a payment workload: four flags, two strings and a user number. -/
def paymentFields : List FieldDecl :=
  [.boolean "is_vip",
    .boolean "blacklisted",
    .boolean "email_verified",
    .boolean "high_risk_ip",
    .string "env" ["prod", "staging", "test_env"],
    .string "payment_method" ["ABCD", "XYZ", "PAYPAL", "STRIPE"],
    .integer "user_id" [12345, 67890, 13579, 24680]]

def payments : Schema :=
  ⟨paymentFields, by decide +kernel⟩

end Schema

end RecordRules
