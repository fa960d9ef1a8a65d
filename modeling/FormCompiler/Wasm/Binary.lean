import FormCompiler.Wasm.Flat
import FormCompiler.Wasm.Leb128

/-! The binary form of a module. All struct and array types stand in one recursive group; after it
comes one function type for each function. -/

namespace FormCompiler.Wasm

abbrev Bytes := List UInt8

def vector (items : List Bytes) : Bytes := Leb128.unsigned items.length ++ items.flatten

def nameBytes (name : String) : Bytes :=
  let bytes := name.toUTF8.toList
  Leb128.unsigned bytes.length ++ bytes

/-- A section: its number, its length and its content. -/
def sectionOf (id : UInt8) (content : Bytes) : Bytes :=
  id :: Leb128.unsigned content.length ++ content

/-- The lowest bytes of a number, least significant first. -/
def littleEndian : Nat → Nat → Bytes
  | 0, _ => []
  | count + 1, n => UInt8.ofNat n :: littleEndian count (n / 256)

def ValueType.bytes : ValueType → Bytes
  | .i32 => [0x7f]
  | .i64 => [0x7e]
  | .f32 => [0x7d]
  | .f64 => [0x7c]
  | .ref type => 0x63 :: Leb128.signed type

def resultBytes : Option ValueType → Bytes
  | none => [0x40]
  | some type => type.bytes

def storageBytes (type : ValueType) (mutable : Bool) : Bytes :=
  type.bytes ++ [if mutable then 1 else 0]

def TypeDef.bytes : TypeDef → Bytes
  | .struct d =>
    0x50 :: vector (d.supertype.toList.map Leb128.unsigned)
      ++ 0x5f :: vector (d.fields.map fun field => storageBytes field.type field.mutable)
  | .array d => 0x5e :: storageBytes d.element d.mutable

def Func.typeBytes (f : Func) : Bytes :=
  0x60 :: vector (f.params.map ValueType.bytes) ++ vector (f.result.toList.map ValueType.bytes)

/-- The code of an operator on a type, where the instruction set has one. -/
def BinOp.opcode? : BinOp → NumType → Option UInt8
  | .eq, .i32 => some 0x46
  | .ne, .i32 => some 0x47
  | .lt, .i32 => some 0x48
  | .gt, .i32 => some 0x4a
  | .le, .i32 => some 0x4c
  | .ge, .i32 => some 0x4e
  | .add, .i32 => some 0x6a
  | .sub, .i32 => some 0x6b
  | .mul, .i32 => some 0x6c
  | .div, .i32 => some 0x6d
  | .rem, .i32 => some 0x6f
  | .and, .i32 => some 0x71
  | .or, .i32 => some 0x72
  | .eq, .i64 => some 0x51
  | .ne, .i64 => some 0x52
  | .lt, .i64 => some 0x53
  | .gt, .i64 => some 0x55
  | .le, .i64 => some 0x57
  | .ge, .i64 => some 0x59
  | .add, .i64 => some 0x7c
  | .sub, .i64 => some 0x7d
  | .mul, .i64 => some 0x7e
  | .div, .i64 => some 0x7f
  | .rem, .i64 => some 0x81
  | .eq, .f32 => some 0x5b
  | .ne, .f32 => some 0x5c
  | .lt, .f32 => some 0x5d
  | .gt, .f32 => some 0x5e
  | .le, .f32 => some 0x5f
  | .ge, .f32 => some 0x60
  | .add, .f32 => some 0x92
  | .sub, .f32 => some 0x93
  | .mul, .f32 => some 0x94
  | .div, .f32 => some 0x95
  | .eq, .f64 => some 0x61
  | .ne, .f64 => some 0x62
  | .lt, .f64 => some 0x63
  | .gt, .f64 => some 0x64
  | .le, .f64 => some 0x65
  | .ge, .f64 => some 0x66
  | .add, .f64 => some 0xa0
  | .sub, .f64 => some 0xa1
  | .mul, .f64 => some 0xa2
  | .div, .f64 => some 0xa3
  | _, _ => none

def FlatInstr.bytes : FlatInstr → Bytes
  | .i32Const value => 0x41 :: Leb128.signed value.toInt
  | .i64Const value => 0x42 :: Leb128.signed value.toInt
  | .f32Const value => 0x43 :: littleEndian 4 value.bits.toNat
  | .f64Const value => 0x44 :: littleEndian 8 value.bits.toNat
  | .localGet index => 0x20 :: Leb128.unsigned index
  | .localSet index => 0x21 :: Leb128.unsigned index
  | .globalGet index => 0x23 :: Leb128.unsigned index
  | .binary op type => (op.opcode? type).toList
  | .eqz .i64 => [0x50]
  | .eqz _ => [0x45]
  | .call function => 0x10 :: Leb128.unsigned function
  | .block result => 0x02 :: resultBytes result
  | .loop => [0x03, 0x40]
  | .cond result => 0x04 :: resultBytes result
  | .otherwise => [0x05]
  | .close => [0x0b]
  | .br depth => 0x0c :: Leb128.unsigned depth
  | .brIf depth => 0x0d :: Leb128.unsigned depth
  | .brTable depths default =>
    0x0e :: vector (depths.map Leb128.unsigned) ++ Leb128.unsigned default
  | .ret => [0x0f]
  | .drop => [0x1a]
  | .unreachable => [0x00]
  | .structNew type => 0xfb :: 0x00 :: Leb128.unsigned type
  | .structGet type field => 0xfb :: 0x02 :: Leb128.unsigned type ++ Leb128.unsigned field
  | .refCast type => 0xfb :: 0x17 :: Leb128.signed type
  | .arrayNewFixed type length =>
    0xfb :: 0x08 :: Leb128.unsigned type ++ Leb128.unsigned length
  | .arrayNewDefault type => 0xfb :: 0x07 :: Leb128.unsigned type
  | .arrayGet type => 0xfb :: 0x0b :: Leb128.unsigned type
  | .arraySet type => 0xfb :: 0x0e :: Leb128.unsigned type
  | .arrayLen => [0xfb, 0x0f]

/-- Equal neighbours counted. -/
def runs : List ValueType → List (Nat × ValueType)
  | [] => []
  | type :: types =>
    match runs types with
    | (count, next) :: rest =>
      if type = next then (count + 1, next) :: rest else (1, type) :: (count, next) :: rest
    | [] => [(1, type)]

namespace Module

variable (m : Module)

def typeOffset : Nat := m.types.size

def numbered : List (Nat × Func) := m.funcs.toList.zipIdx.map fun (f, index) => (index, f)

def typeSection : Bytes :=
  let group := if m.types.isEmpty then [] else [0x4e :: vector (m.types.toList.map TypeDef.bytes)]
  sectionOf 1 (vector (group ++ m.funcs.toList.map Func.typeBytes))

def importEntries : List Bytes :=
  m.numbered.filterMap fun (index, f) => f.host?.map fun source =>
    nameBytes source.module ++ nameBytes source.name
      ++ 0x00 :: Leb128.unsigned (m.typeOffset + index)

def functionEntries : List Bytes :=
  m.numbered.filterMap fun (index, f) =>
    if f.host?.isNone then some (Leb128.unsigned (m.typeOffset + index)) else none

def exportEntries : List Bytes :=
  (m.funcs.toList.zip m.binaryIndices).filterMap fun (f, index) =>
    f.exportName.map fun name => nameBytes name ++ 0x00 :: Leb128.unsigned index

/-- The stack code of an initialiser. -/
def flatGlobal (g : Global) : Except Diagnostic (List FlatInstr) :=
  g.init.flatten m.binaryIndices.toArray []

def flatBody (f : Func) : Except Diagnostic (List FlatInstr) :=
  flattenAll m.binaryIndices.toArray [] f.body

def globalEntry (g : Global) : Except Diagnostic Bytes := do
  let init ← m.flatGlobal g
  return storageBytes g.type false ++ init.flatMap FlatInstr.bytes ++ [0x0b]

def codeEntry (f : Func) : Except Diagnostic Bytes := do
  let code ← m.flatBody f
  let groups := (runs f.locals).map fun (count, type) => Leb128.unsigned count ++ type.bytes
  let content := vector groups ++ code.flatMap FlatInstr.bytes ++ [0x0b]
  return Leb128.unsigned content.length ++ content

/-- A section that is left out when it has no entries. -/
def optionalSection (id : UInt8) (entries : List Bytes) : Bytes :=
  if entries.isEmpty then [] else sectionOf id (vector entries)

def encode : Except Diagnostic Bytes := do
  let globals ← m.globals.toList.mapM m.globalEntry
  let code ← (m.funcs.toList.filter (·.host?.isNone)).mapM m.codeEntry
  return [0x00, 0x61, 0x73, 0x6d, 0x01, 0x00, 0x00, 0x00]
    ++ m.typeSection
    ++ optionalSection 2 m.importEntries
    ++ sectionOf 3 (vector m.functionEntries)
    ++ optionalSection 6 globals
    ++ sectionOf 7 (vector m.exportEntries)
    ++ sectionOf 10 (vector code)

end Module

end FormCompiler.Wasm
