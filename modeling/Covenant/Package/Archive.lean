import Covenant.Package.Script

/-!
Archives of packages.

An archive is a sequence of entries, each with a header in front of its data, a directory
of the entries, and a record that tells where the directory is. There may be other bytes
in front of the first entry and after the record. Entries hold their data as it is, with
a checksum. The files of a package are UTF-8 texts; entries for directories are left out.
-/

namespace Covenant

/-! ### Checksums

The CRC-32 checksum: bytes are divided as a polynomial, low bits first, and the checksum is
the remainder. -/

namespace Checksum

def divisor : UInt32 := 0xedb88320

def step (r : UInt32) : UInt32 :=
  if r &&& 1 = 0 then r >>> 1 else (r >>> 1) ^^^ divisor

def next (r : UInt32) (b : UInt8) : UInt32 :=
  (step ∘ step ∘ step ∘ step ∘ step ∘ step ∘ step ∘ step) (r ^^^ b.toUInt32)

def ofBytes (bytes : ByteArray) : UInt32 :=
  ~~~ bytes.foldl next 0xffffffff

end Checksum

end Covenant

namespace Covenant.Package

namespace Archive

/-! ### Fields -/

/-- The little-endian number in `width` bytes from `start` on. Bytes after the end count as
zero. -/
def number (b : ByteArray) (start : Nat) : Nat → Nat
  | 0 => 0
  | width + 1 => (b.data.getD start 0).toNat + 256 * number b (start + 1) width

/-- `length` bytes from `start` on, or as many as there are. -/
def bytes (b : ByteArray) (start length : Nat) : ByteArray :=
  b.extract start (start + length)

def headerSignature : Nat := 0x04034b50

def directorySignature : Nat := 0x02014b50

def endSignature : Nat := 0x06054b50

def broken {α : Type} : Outcome α :=
  .fail (.package .notArchive)

/-! ### Names -/

/-- The upper half of code page 437, in which names are written that are not in UTF-8. -/
def codePage : List Char :=
  ("ÇüéâäàåçêëèïîìÄÅÉæÆôöòûùÿÖÜ¢£¥₧ƒáíóúñÑªº¿⌐¬½¼¡«»░▒▓│┤╡╢╖╕╣║╗╝╜╛┐└┴┬├─┼╞╟╚╔╩╦╠═╬╧╨╤╥╙╘╒╓╫╪┘┌█▄▌▐▀"
    ++ "αßΓπΣσµτΦΘΩδ∞φε∩≡±≥≤⌠⌡÷≈°∙·√ⁿ²■\u00a0").toList

def codePageChar (b : UInt8) : Char :=
  if b < 128 then Char.ofNat b.toNat else codePage.getD (b.toNat - 128) ' '

/-- Whether a name is in UTF-8, by the flags of its entry. -/
def nameIsUtf8 (flags : Nat) : Bool :=
  flags.testBit 11

def readName (flags : Nat) (b : ByteArray) : Outcome String :=
  if nameIsUtf8 flags then
    match String.fromUTF8? b with
    | some s => .ok s
    | none => .fail (.package .notTextEntry)
  else .ok (String.ofList (b.toList.map codePageChar))

/-! ### The directory -/

/-- An entry of the directory. `offset` is where its header is. -/
structure Entry where
  name : String
  flags : Nat
  method : Nat
  checksum : Nat
  packedSize : Nat
  size : Nat
  offset : Int

/-- The name of the file of an entry: it ends before the first null character. -/
def Entry.path (e : Entry) : String :=
  String.ofList (e.name.toList.takeWhile fun c => c != '\x00')

/-- The highest version of the format that is understood. -/
def highestVersion : Nat := 63

/-- The greatest number of bytes from the start of the record on. -/
def longestEnd : Nat := 22 + 65536

/-- Where the record at the end is: at the last signature, which is not too far from the
end. -/
def findEnd (b : ByteArray) : Nat → Option Nat
  | 0 => none
  | n + 1 =>
    if n + longestEnd < b.size then none
    else if number b n 4 = endSignature then (if n + 22 ≤ b.size then some n else none)
    else findEnd b n

/-- The entries of a directory from `start` on. `shift` is the number of bytes in front of
the archive. -/
def readEntries (d : ByteArray) (size : Nat) (shift : Int) : Nat → Nat → Outcome (List Entry)
  | 0, _ => .ok []
  | fuel + 1, start =>
    if size ≤ start then .ok []
    else if d.size < start + 46 then broken
    else if number d start 4 ≠ directorySignature then broken
    else do
      let field (offset width : Nat) : Nat := number d (start + offset) width
      let flags := field 8 2
      let nameLength := field 28 2
      let name ← readName flags (bytes d (start + 46) nameLength)
      if highestVersion < field 6 2 then .fail .undefined
      let entries ← readEntries d size shift fuel
        (start + 46 + nameLength + field 30 2 + field 32 2)
      return { name, flags, method := field 10 2, checksum := field 16 4
               packedSize := field 20 4, size := field 24 4, offset := field 42 4 + shift }
        :: entries

def readDirectory (b : ByteArray) : Outcome (List Entry) := do
  let some place := findEnd b b.size | broken
  let size := number b (place + 12) 4
  let offset := number b (place + 16) 4
  if place < size then broken
  readEntries (bytes b (place - size) size) size (place - (size + offset)) size 0

/-! ### Data -/

def readData (b : ByteArray) (e : Entry) : Outcome ByteArray := do
  if e.offset < 0 then .fail .undefined
  let start := e.offset.toNat
  if b.size < start + 30 then broken
  if number b start 4 ≠ headerSignature then broken
  let field (offset width : Nat) : Nat := number b (start + offset) width
  let nameLength := field 26 2
  let name ← readName (field 6 2) (bytes b (start + 30) nameLength)
  if name ≠ e.name then broken
  if e.method ≠ 0 ∨ e.flags.testBit 0 then .fail .undefined
  let packed := bytes b (start + 30 + nameLength + field 28 2) e.packedSize
  let data := bytes packed 0 e.size
  if packed.size < e.packedSize ∧ data.size < e.size then .fail .undefined
  if (Checksum.ofBytes data).toNat ≠ e.checksum then broken
  return data

def readText (data : ByteArray) : Outcome String :=
  match String.fromUTF8? data with
  | some s => .ok s
  | none => .fail (.package .notTextEntry)

/-- Whether a path is that of a directory. -/
def isDirectory (path : String) : Bool :=
  path.toList.getLast? = some '/'

/-- The files of entries whose data is known. A repeated path keeps its first place and
its last text. -/
def files (entries : List (String × ByteArray)) : Outcome Files := do
  let texts ← (entries.filter fun e => !isDirectory e.1).mapM fun e => do
    let text ← readText e.2
    return (e.1, text)
  return Table.ofList texts

def read (b : ByteArray) : Outcome Files := do
  let entries ← readDirectory b
  let texts ← (entries.filter fun e => !isDirectory e.path).mapM fun e => do
    let data ← readData b e
    let text ← readText data
    return (e.path, text)
  return Table.ofList texts

/-- The entries of the archive of files: they are in the order of their paths. -/
def write (files : Files) : List (String × ByteArray) :=
  files.sorted.map fun e => (e.1, e.2.toUTF8)

end Archive

end Covenant.Package
