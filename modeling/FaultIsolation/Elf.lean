import FaultIsolation.Mode

/-!
Object files in the Executable and Linkable Format, as far as it takes to find a section by name.
-/

namespace FaultIsolation.Elf

/-- Why a file cannot be used. -/
inductive Malformed where
  | shortMagic
  | unknownMagic
  | header
  | unsupported
  | entrySize
  | sectionTable
  | nameTable
  | sectionData
  deriving DecidableEq

def Malformed.message : Malformed → String
  | .shortMagic => "Could not read file magic"
  | .unknownMagic => "Unknown file magic"
  | .header => "Invalid ELF header size or alignment"
  | .unsupported => "Unsupported ELF header"
  | .entrySize => "Invalid ELF section header entry size"
  | .sectionTable => "Invalid ELF section header offset/size/alignment"
  | .nameTable => "Invalid ELF e_shstrndx"
  | .sectionData => "Invalid ELF section size or offset"

/-- The `size` bytes from `offset` on, if there are that many. -/
def slice? (bytes : List UInt8) (offset size : Nat) : Option (List UInt8) :=
  let part := (bytes.drop offset).take size
  if part.length = size then some part else none

/-- A number, highest byte first. -/
def number (bytes : List UInt8) : Nat :=
  bytes.foldl (fun n b => 256 * n + b.toNat) 0

/-- Where the fields of the headers stand. Each is an offset and a size. -/
structure Layout where
  headerSize : Nat
  tableOffset : Nat × Nat
  entrySize : Nat × Nat
  count : Nat × Nat
  nameIndex : Nat × Nat
  sectionHeaderSize : Nat
  dataOffset : Nat × Nat
  dataSize : Nat × Nat

def layout32 : Layout where
  headerSize := 52
  tableOffset := (32, 4)
  entrySize := (46, 2)
  count := (48, 2)
  nameIndex := (50, 2)
  sectionHeaderSize := 40
  dataOffset := (16, 4)
  dataSize := (20, 4)

def layout64 : Layout where
  headerSize := 64
  tableOffset := (40, 8)
  entrySize := (58, 2)
  count := (60, 2)
  nameIndex := (62, 2)
  sectionHeaderSize := 64
  dataOffset := (24, 8)
  dataSize := (32, 8)

/-- The type of a section that takes no room in the file. -/
def noBits : Nat := 8

structure Section where
  /-- Where its name stands in the table of names. -/
  nameOffset : Nat
  kind : Nat
  offset : Nat
  size : Nat
  deriving DecidableEq

structure Image where
  bytes : List UInt8
  machine : Nat
  sections : List Section
  /-- The bytes of the names, each ended by a zero; none if they are not in the file. -/
  names : Option (List UInt8)

/-- Reads a field at an offset and of a size, in the byte order of the file. -/
def field (bigEndian : Bool) (bytes : List UInt8) (place : Nat × Nat) : Nat :=
  let part := (bytes.drop place.1).take place.2
  number (if bigEndian then part else part.reverse)

def Section.read (layout : Layout) (bigEndian : Bool) (entry : List UInt8) : Section where
  nameOffset := field bigEndian entry (0, 4)
  kind := field bigEndian entry (4, 4)
  offset := field bigEndian entry layout.dataOffset
  size := field bigEndian entry layout.dataSize

def Section.data? (s : Section) (bytes : List UInt8) : Option (List UInt8) :=
  if s.kind = noBits then some [] else slice? bytes s.offset s.size

/-- The layout that the first bytes announce. -/
def layoutOf? (bytes : List UInt8) : Option Layout :=
  match bytes with
  | 0x7f :: 0x45 :: 0x4c :: 0x46 :: 1 :: _ => some layout32
  | 0x7f :: 0x45 :: 0x4c :: 0x46 :: 2 :: _ => some layout64
  | _ => none

/-- The byte order that the header announces, if it is of the one version there is. -/
def bigEndian? (bytes : List UInt8) : Option Bool :=
  match (bytes.drop 5).take 2 with
  | [1, 1] => some false
  | [2, 1] => some true
  | _ => none

/-- The entries of the section table. A file need not have one. -/
def sectionEntries (layout : Layout) (bigEndian : Bool) (bytes : List UInt8) :
    Except Malformed (List (List UInt8)) := do
  let offset := field bigEndian bytes layout.tableOffset
  let count := field bigEndian bytes layout.count
  if offset = 0 ∨ count = 0 then return []
  if field bigEndian bytes layout.entrySize ≠ layout.sectionHeaderSize then throw .entrySize
  let some table := slice? bytes offset (count * layout.sectionHeaderSize)
    | throw .sectionTable
  return (List.range count).map fun n =>
    (table.drop (n * layout.sectionHeaderSize)).take layout.sectionHeaderSize

def parse (bytes : List UInt8) : Except Malformed Image := do
  if bytes.length < 16 then throw .shortMagic
  let some layout := layoutOf? bytes | throw .unknownMagic
  if bytes.length < layout.headerSize then throw .header
  let some bigEndian := bigEndian? bytes | throw .unsupported
  let sections := (← sectionEntries layout bigEndian bytes).map (Section.read layout bigEndian)
  let names ←
    if sections.isEmpty then pure none
    else
      match sections[field bigEndian bytes layout.nameIndex]? with
      | none => throw .nameTable
      | some s => pure (if s.kind = noBits then none else slice? bytes s.offset s.size)
  return { bytes, machine := field bigEndian bytes (18, 2), sections, names }

namespace Image

def name? (image : Image) (s : Section) : Option (List UInt8) := do
  let rest := (← image.names).drop s.nameOffset
  guard (rest.contains 0)
  return rest.takeWhile (· != 0)

/-- The first section of the name. -/
def find? (image : Image) (name : String) : Option Section :=
  image.sections.find? fun s => image.name? s == some name.toUTF8.toList

def data (image : Image) (s : Section) : Except Malformed (List UInt8) :=
  match s.data? image.bytes with
  | some bytes => .ok bytes
  | none => .error .sectionData

/-- The mode that the file's machine runs its code in, for the machines of this family. -/
def mode? (image : Image) : Option Mode :=
  match image.machine with
  | 3 => some .bits32
  | 62 => some .bits64
  | _ => none

end Image

end FaultIsolation.Elf
