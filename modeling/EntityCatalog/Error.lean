import EntityCatalog.Kind.Basic
import EntityCatalog.Path.Basic
import EntityCatalog.Text.Decimal
import EntityCatalog.Bytes.Hex

/-!
# Errors

Every way in which an operation of the catalog can fail, by cause. The wording is kept apart
from the causes, in one function for each type.
-/

namespace EntityCatalog

/-- Why a byte string is not the key of a row. -/
inductive KeyFault where
  | tooShort (length : Nat)
  | unknownCode (code : Bytes)
  | unevenBody (length : Nat)
  | idCount (kind : Kind) (found expected : Nat)
  | separator (found : UInt8)
  | unmappedId (id : UInt64)
  | outOfScope (name : String) (id : UInt64) (scope : String)
  | nameNotText
  | other (text : String)
deriving DecidableEq, Repr

/-- Why the value of a row cannot be read. -/
inductive ValueFault where
  | idWidth (length : Nat)
  | nameNotText (id : UInt64)
  | markWidth (length : Nat)
  | truncated
  | other (text : String)
deriving DecidableEq, Repr

/-- What is wrong with an argument. -/
inductive ArgumentFault where
  | unknownKind (text : String)
  | emptySegment (text : String)
  | vagueNamespace (path : Path)
  | emptyName
  | wildcardMapping (path : Path)
  | manyEntities (path : Path)
  | badName (name : String)
  | other (text : String)
deriving DecidableEq, Repr

/-- What is wrong with a configuration. -/
inductive SettingFault where
  | badSetting (value key : String)
  | badOption (value option : String)
  | zero (key : String)
  | other (text : String)
deriving DecidableEq, Repr

/-- A failure that no argument explains. -/
inductive InternalFault where
  | idsExhausted (name : String) (attempts : Nat)
  | other (text : String)
deriving DecidableEq, Repr

/-- Why an operation failed. -/
inductive Error where
  | unsupportedKind (kind : Kind)
  | wrongDepth (kind : Kind) (expected actual : Nat)
  | corruptKey (fault : KeyFault)
  | storage (text : String)
  | alreadyOpen (place : String)
  | corruptValue (fault : ValueFault)
  | clockSkew (persisted current tolerance : UInt64)
  | notRunning
  | noSuchEntity (path : Path)
  | entityExists (path : Path)
  | hasSubEntities (path : Path)
  | nameTaken (name : String)
  | invalidArgument (fault : ArgumentFault)
  | configuration (fault : SettingFault)
  | internal (fault : InternalFault)
deriving DecidableEq, Repr

/-- A byte string as a list of decimals. -/
def Bytes.listing (bytes : Bytes) : String :=
  "[" ++ ", ".intercalate (bytes.map fun b => Text.decimal b.toNat) ++ "]"

/-- The wording of a key's fault. -/
def KeyFault.text : KeyFault → String
  | tooShort length => "key of " ++ Text.decimal length ++ " bytes is too short"
  | unknownCode code => "unknown kind code " ++ code.listing
  | unevenBody length =>
    "key body of " ++ Text.decimal length ++ " bytes is not a sequence of ids"
  | idCount kind found expected =>
    kind.name ++ " key holds " ++ Text.decimal found ++ " id(s), expected " ++
      Text.decimal expected
  | separator found => "expected separator, found byte 0x" ++ Hex.encode [found]
  | unmappedId id => "id " ++ Text.word id ++ " has no mapping"
  | outOfScope name id scope =>
    "mapping '" ++ name ++ "' of id " ++ Text.word id ++ " is not scoped by '" ++ scope ++ "'"
  | nameNotText => "mapping name is not UTF-8"
  | other text => text

/-- The wording of a value's fault. -/
def ValueFault.text : ValueFault → String
  | idWidth length => "expected an 8-byte id, got " ++ Text.decimal length ++ " bytes"
  | nameNotText id => "mapping of id " ++ Text.word id ++ " is not UTF-8"
  | markWidth length =>
    "transaction mark has " ++ Text.decimal length ++ " bytes, expected 8"
  | truncated => "io error: unexpected end of file"
  | other text => text

/-- The wording of an argument's fault. -/
def ArgumentFault.text : ArgumentFault → String
  | unknownKind text => "unknown entity kind '" ++ text ++ "'"
  | emptySegment text => "path '" ++ text ++ "' contains an empty segment"
  | vagueNamespace path => "namespace of " ++ path.text ++ " must consist of concrete names"
  | emptyName => "entity name must not be empty"
  | wildcardMapping path => "wildcard path " ++ path.text ++ " has no mapping key"
  | manyEntities path => path.text ++ " addresses many entities"
  | badName name => "invalid new name '" ++ name ++ "'"
  | other text => text

/-- The wording of a fault of the configuration. -/
def SettingFault.text : SettingFault → String
  | badSetting value key => "invalid value '" ++ value ++ "' for " ++ key
  | badOption value option => "invalid value '" ++ value ++ "' for store option '" ++ option ++ "'"
  | zero key => key ++ " must be greater than zero"
  | other text => text

/-- The wording of an internal fault. -/
def InternalFault.text : InternalFault → String
  | idsExhausted name attempts =>
    "could not allocate an id for '" ++ name ++ "' after " ++ Text.decimal attempts ++ " attempts"
  | other text => text

namespace Error

/-- The message of an error. -/
def message : Error → String
  | unsupportedKind kind => "entity kind " ++ kind.name ++ " cannot be encoded on its own"
  | wrongDepth kind expected actual =>
    kind.name ++ " requires a namespace of " ++ Text.decimal expected ++ " level(s), got " ++
      Text.decimal actual
  | corruptKey fault => "corrupt key: " ++ fault.text
  | storage text => "storage I/O error: " ++ text
  | alreadyOpen place => "store at " ++ place ++ " is already open"
  | corruptValue fault => "corrupt value: " ++ fault.text
  | clockSkew persisted current tolerance =>
    "clock skew exceeded: transaction ids at " ++ Text.word persisted ++ " ms, wall clock at " ++
      Text.word current ++ " ms, tolerance " ++ Text.word tolerance ++ " ms"
  | notRunning => "transaction id generator is not running"
  | noSuchEntity path => "no such entity: " ++ path.text
  | entityExists path => "entity already exists: " ++ path.text
  | hasSubEntities path => "entity " ++ path.text ++ " still has sub-entities"
  | nameTaken name => "name already mapped: " ++ name
  | invalidArgument fault => "invalid argument: " ++ fault.text
  | configuration fault => "configuration error: " ++ fault.text
  | internal fault => "internal error: " ++ fault.text

/-- Whether the same call may succeed when it is made again. -/
def isRetryable : Error → Bool
  | storage _ => true
  | _ => false

/-- Whether the error says that an entity is absent. -/
def isNotFound : Error → Bool
  | noSuchEntity _ => true
  | _ => false

end Error

end EntityCatalog
