import FactGraph.Error
import FactGraph.Table
import FactGraph.Text.CodePage437
import FactGraph.Time
import FactGraph.Zip.Crc
import FactGraph.Zip.Inflate

/-!
# Archives

An archive is a table of members by name.  It is read from the back: an end record says where the
directory is and how many headers it has, and each header says where a member's data starts.  Bytes in
front of the archive shift all positions.  If the directory of an end record cannot be read, an
earlier end record is tried.
-/

namespace FactGraph

/-- A member of an archive. -/
structure Member where
  name : String
  size : Nat
  modified : Option Moment
  /-- Why the member cannot be opened. -/
  fault : Option ArchiveFault
  /-- The bytes of the member, or why they cannot be read. -/
  content : Thunk (Except String Bytes)

/-- The members by name. -/
structure Archive where
  members : Table String Member
  /-- Members stand under their own names. -/
  named : ∀ name m, members.get? name = some m → m.name = name

namespace Archive

/-- The archive of some members; of two with one name the later counts. -/
def ofMembers (members : List Member) : Archive where
  members := Table.ofList (members.map fun m => (m.name, m))
  named name m h := by
    obtain ⟨_, _, hrow⟩ := List.mem_map.mp (Table.mem_of_get?_ofList h)
    cases hrow
    rfl

/-- The names of all members. -/
def names (a : Archive) : List String := a.members.keys

/-- Open the member of a name. -/
def open? (a : Archive) (name : String) : Except ArchiveFault Member :=
  match a.members.get? name with
  | none => .error .missingEntry
  | some m =>
    match m.fault with
    | some fault => .error fault
    | none => .ok m

end Archive

namespace Member

/-- Whether a member stands for a directory: its name ends in a slash of either kind. -/
def isDirectory (m : Member) : Bool := m.name.toList.getLast?.any Step.separates

end Member

namespace Zip

/-! ## 1. Numbers -/

/-- The number in `n` bytes from a position, lowest byte first. -/
def number? (data : Array UInt8) (n pos : Nat) : Option Nat :=
  (List.range n).foldrM (fun i value => do
    let b ← data[pos + i]?
    return b.toNat + 256 * value) 0

/-- Whether the four bytes from a position are a given signature. -/
def isAt (data : Array UInt8) (signature pos : Nat) : Bool := number? data 4 pos == some signature

/-- The signature of the end record. -/
def endSignature : Nat := 0x06054b50

/-- The signature of a directory header. -/
def directorySignature : Nat := 0x02014b50

/-- The signature of a local header. -/
def localSignature : Nat := 0x04034b50

/-- The moment of a date and time as archives write them; seconds are even, and a leap second is
taken back. -/
def moment? (date time : Nat) : Option Moment :=
  let second := time % 32 * 2
  if 60 < second then none
  else
    Moment.ofCivil? (1980 + date / 512) (date / 32 % 16) (date % 32) (time / 2048) (time / 32 % 64)
      (min second 58)

/-! ## 2. The end record -/

/-- What an end record says. -/
structure End where
  /-- Where the record itself is. -/
  position : Nat
  disk : Nat
  directoryDisk : Nat
  count : Nat
  directoryOffset : Nat
  commentLength : Nat

/-- Read the end record at a position. -/
def endAt? (data : Array UInt8) (position : Nat) : Option End := do
  let disk ← number? data 2 (position + 4)
  let directoryDisk ← number? data 2 (position + 6)
  let count ← number? data 2 (position + 10)
  let _ ← number? data 4 (position + 12)
  let directoryOffset ← number? data 4 (position + 16)
  let commentLength ← number? data 2 (position + 20)
  return { position, disk, directoryDisk, count, directoryOffset, commentLength }

/-- The first position from `start` on, below `start + span`, with a signature. -/
def findForward (data : Array UInt8) (signature start : Nat) (span : Nat) : Option Nat :=
  ((List.range span).find? fun i => isAt data signature (start + i)).map (start + ·)

/-- The end record at a position with the number of bytes in front of the archive, or why it is of no
use. -/
def checkedEnd (data : Array UInt8) (position : Nat) : Except ArchiveFault (End × Nat) :=
  match endAt? data position with
  | none => .error (.unreadable "failed to fill whole buffer")
  | some e =>
    if data.size < position + 22 + e.commentLength then
      .error (.invalid "Invalid EOCD comment length")
    else if e.count = 0 then .ok (e, position - e.directoryOffset)
    else if position ≤ e.directoryOffset then .error (.invalid "Invalid CDFH offset in EOCD")
    else
      match findForward data directorySignature e.directoryOffset (position - e.directoryOffset) with
      | some start => .ok (e, start - e.directoryOffset)
      | none => .error (.invalid "No CDFH found")

/-- The last usable end record below a position.  `fault` remembers why later ones were of no use. -/
def findEnd (data : Array UInt8) (fault : Option ArchiveFault) :
    Nat → Except ArchiveFault (End × Nat)
  | 0 => .error (fault.getD (.invalid "Could not find EOCD"))
  | position + 1 =>
    if isAt data endSignature position then
      match checkedEnd data position with
      | .ok found => .ok found
      | .error f =>
        let kept := match f, fault with
          | .unreadable _, some earlier => earlier
          | f, _ => f
        findEnd data (some kept) position
    else findEnd data fault position

/-! ## 3. The directory -/

/-- What the headers of a member say. -/
structure Header where
  name : String
  encrypted : Bool
  method : Nat
  date : Nat
  time : Nat
  checksum : Nat
  packedSize : Nat
  size : Nat
  dataStart : Nat

/-- The bytes between two positions. -/
def slice (data : Array UInt8) (start length : Nat) : Bytes := (data.extract start (start + length)).toList

/-- Read the directory header at a position: the header, and the position behind it. -/
def headerAt (data : Array UInt8) (shift directory pos : Nat) : Except ArchiveFault (Header × Nat) := do
  let field (n offset : Nat) : Except ArchiveFault Nat :=
    match number? data n (pos + offset) with
    | some value => .ok value
    | none => .error (.unreadable "failed to fill whole buffer")
  if (← field 4 0) ≠ directorySignature then throw (.invalid "Invalid Central Directory header")
  let flags ← field 2 8
  let method ← field 2 10
  let time ← field 2 12
  let date ← field 2 14
  let checksum ← field 4 16
  let packedSize ← field 4 20
  let size ← field 4 24
  let nameLength ← field 2 28
  let extraLength ← field 2 30
  let commentLength ← field 2 32
  let offset ← field 4 42
  let next := pos + 46 + nameLength + extraLength + commentLength
  if data.size < next then throw (.unreadable "failed to fill whole buffer")
  let raw := slice data (pos + 46) nameLength
  let name := if flags / 0x800 % 2 = 1 then Utf8.decodeLossy raw else CodePage437.decode raw
  let start := offset + shift
  if directory ≤ start then
    throw (.invalid "A local file entry can't start after the central directory")
  if !isAt data localSignature start then throw (.invalid "Invalid local file header")
  match number? data 2 (start + 26), number? data 2 (start + 28) with
  | some localName, some localExtra =>
    let dataStart := start + 30 + localName + localExtra
    if directory < dataStart then throw (.invalid "File data can't start after the central directory")
    let encrypted := flags % 2 = 1
    return ({ name, encrypted, method, date, time, checksum, packedSize, size, dataStart }, next)
  | _, _ => throw (.unreadable "failed to fill whole buffer")

/-- Read the headers of a directory; `done` holds those read, last first. -/
def headers (data : Array UInt8) (shift directory : Nat) : Nat → Nat → List Header →
    Except ArchiveFault (List Header)
  | 0, _, done => .ok done.reverse
  | count + 1, pos, done => do
    let (header, next) ← headerAt data shift directory pos
    headers data shift directory count next (header :: done)

/-- Unpack the data of a member and compare its checksum. -/
def unpack (data : Array UInt8) (h : Header) : Except String Bytes :=
  let packed := data.extract h.dataStart (h.dataStart + h.packedSize)
  let unpacked := if h.method = 8 then inflate? packed else some packed
  match unpacked with
  | none => .error "corrupt deflate stream"
  | some bytes =>
    if (crc32 bytes).toNat = h.checksum then .ok bytes.toList else .error "Invalid checksum"

/-- The member that a header describes. -/
def member (data : Array UInt8) (h : Header) : Member :=
  { name := h.name
    size := h.size
    modified := moment? h.date h.time
    fault :=
      if h.encrypted then some (.unsupported "Password required to decrypt file")
      else if h.method ≠ 0 ∧ h.method ≠ 8 then
        some (.unsupported "Compression method not supported")
      else none
    content := Thunk.mk fun _ => unpack data h }

/-- The archive that an end record describes. -/
def directory (data : Array UInt8) (e : End) (shift : Nat) : Except ArchiveFault Archive := do
  if e.disk ≠ e.directoryDisk then
    throw (.unsupported "Support for multi-disk files is not implemented")
  let start := e.directoryOffset + shift
  let found ← headers data shift start e.count start []
  return .ofMembers (found.map (member data))

/-- Read the archive of the last end record below a position that has one; `fault` is why the last
directory tried could not be read. -/
def openBelow (data : Array UInt8) : Nat → Nat → Option ArchiveFault → Except ArchiveFault Archive
  | 0, _, fault => .error (fault.getD (.invalid "Could not find EOCD"))
  | fuel + 1, below, fault =>
    match findEnd data none below with
    | .error f => .error (fault.getD f)
    | .ok (e, shift) =>
      match directory data e shift with
      | .ok archive => .ok archive
      | .error f => openBelow data fuel e.position (some f)

/-- Read an archive. -/
def openArchive (bytes : Bytes) : Except ArchiveFault Archive :=
  let data := bytes.toArray
  openBelow data (data.size + 1) data.size none

end Zip

end FactGraph
