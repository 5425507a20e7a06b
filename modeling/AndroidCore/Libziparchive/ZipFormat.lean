import AndroidCore.Lib.LittleEndian

/-!
# `AndroidCore.Libziparchive.ZipFormat`: the records of a zip file

The packed records of `zip_archive_common.h`, with the bytes that `fwrite` makes of them
and the fields that a `reinterpret_cast` of bytes finds; and `IsValidEntryName`.
-/

namespace AndroidCore.Libziparchive

open Lib

/-- A `uint16_t` in a packed record. -/
def u16 (buf : List UInt8) (off : Nat) : UInt16 := UInt16.ofNat (leValue ((buf.drop off).take 2))

/-- A `uint32_t` in a packed record. -/
def u32 (buf : List UInt8) (off : Nat) : UInt32 := UInt32.ofNat (leValue ((buf.drop off).take 4))

/-- The bytes of a `uint16_t`. -/
def bytes16 (v : UInt16) : List UInt8 := leBytes 2 v.toNat

/-- The bytes of a `uint32_t`. -/
def bytes32 (v : UInt32) : List UInt8 := leBytes 4 v.toNat

/-! ### The end of the central directory -/

/-- `EocdRecord`. -/
structure EocdRecord where
  eocdSignature : UInt32
  diskNum : UInt16
  cdStartDisk : UInt16
  numRecordsOnDisk : UInt16
  numRecords : UInt16
  cdSize : UInt32
  cdStartOffset : UInt32
  commentLength : UInt16
deriving DecidableEq, Repr

namespace EocdRecord

/-- `EocdRecord::kSignature`. -/
def kSignature : UInt32 := 0x06054b50

/-- `sizeof(EocdRecord)`. -/
def size : Nat := 22

def encode (r : EocdRecord) : List UInt8 :=
  bytes32 r.eocdSignature ++ (bytes16 r.diskNum ++ (bytes16 r.cdStartDisk ++
    (bytes16 r.numRecordsOnDisk ++ (bytes16 r.numRecords ++ (bytes32 r.cdSize ++
    (bytes32 r.cdStartOffset ++ bytes16 r.commentLength))))))

def decode (buf : List UInt8) : EocdRecord where
  eocdSignature := u32 buf 0
  diskNum := u16 buf 4
  cdStartDisk := u16 buf 6
  numRecordsOnDisk := u16 buf 8
  numRecords := u16 buf 10
  cdSize := u32 buf 12
  cdStartOffset := u32 buf 16
  commentLength := u16 buf 20

end EocdRecord

/-! ### The central directory -/

/-- `CentralDirectoryRecord`. -/
structure CentralDirectoryRecord where
  recordSignature : UInt32
  versionMadeBy : UInt16
  versionNeeded : UInt16
  gpbFlags : UInt16
  compressionMethod : UInt16
  lastModTime : UInt16
  lastModDate : UInt16
  crc32 : UInt32
  compressedSize : UInt32
  uncompressedSize : UInt32
  fileNameLength : UInt16
  extraFieldLength : UInt16
  commentLength : UInt16
  fileStartDisk : UInt16
  internalFileAttributes : UInt16
  externalFileAttributes : UInt32
  localFileHeaderOffset : UInt32
deriving DecidableEq, Repr

namespace CentralDirectoryRecord

/-- `CentralDirectoryRecord::kSignature`. -/
def kSignature : UInt32 := 0x02014b50

/-- `sizeof(CentralDirectoryRecord)`. -/
def size : Nat := 46

def encode (r : CentralDirectoryRecord) : List UInt8 :=
  bytes32 r.recordSignature ++ (bytes16 r.versionMadeBy ++ (bytes16 r.versionNeeded ++
    (bytes16 r.gpbFlags ++ (bytes16 r.compressionMethod ++ (bytes16 r.lastModTime ++
    (bytes16 r.lastModDate ++ (bytes32 r.crc32 ++ (bytes32 r.compressedSize ++
    (bytes32 r.uncompressedSize ++ (bytes16 r.fileNameLength ++ (bytes16 r.extraFieldLength ++
    (bytes16 r.commentLength ++ (bytes16 r.fileStartDisk ++
    (bytes16 r.internalFileAttributes ++ (bytes32 r.externalFileAttributes ++
    bytes32 r.localFileHeaderOffset)))))))))))))))

def decode (buf : List UInt8) : CentralDirectoryRecord where
  recordSignature := u32 buf 0
  versionMadeBy := u16 buf 4
  versionNeeded := u16 buf 6
  gpbFlags := u16 buf 8
  compressionMethod := u16 buf 10
  lastModTime := u16 buf 12
  lastModDate := u16 buf 14
  crc32 := u32 buf 16
  compressedSize := u32 buf 20
  uncompressedSize := u32 buf 24
  fileNameLength := u16 buf 28
  extraFieldLength := u16 buf 30
  commentLength := u16 buf 32
  fileStartDisk := u16 buf 34
  internalFileAttributes := u16 buf 36
  externalFileAttributes := u32 buf 38
  localFileHeaderOffset := u32 buf 42

end CentralDirectoryRecord

/-! ### The headers of the entries -/

/-- `LocalFileHeader`. -/
structure LocalFileHeader where
  lfhSignature : UInt32
  versionNeeded : UInt16
  gpbFlags : UInt16
  compressionMethod : UInt16
  lastModTime : UInt16
  lastModDate : UInt16
  crc32 : UInt32
  compressedSize : UInt32
  uncompressedSize : UInt32
  fileNameLength : UInt16
  extraFieldLength : UInt16
deriving DecidableEq, Repr

namespace LocalFileHeader

/-- `LocalFileHeader::kSignature`. -/
def kSignature : UInt32 := 0x04034b50

/-- `sizeof(LocalFileHeader)`. -/
def size : Nat := 30

def encode (r : LocalFileHeader) : List UInt8 :=
  bytes32 r.lfhSignature ++ (bytes16 r.versionNeeded ++ (bytes16 r.gpbFlags ++
    (bytes16 r.compressionMethod ++ (bytes16 r.lastModTime ++ (bytes16 r.lastModDate ++
    (bytes32 r.crc32 ++ (bytes32 r.compressedSize ++ (bytes32 r.uncompressedSize ++
    (bytes16 r.fileNameLength ++ bytes16 r.extraFieldLength)))))))))

def decode (buf : List UInt8) : LocalFileHeader where
  lfhSignature := u32 buf 0
  versionNeeded := u16 buf 4
  gpbFlags := u16 buf 6
  compressionMethod := u16 buf 8
  lastModTime := u16 buf 10
  lastModDate := u16 buf 12
  crc32 := u32 buf 14
  compressedSize := u32 buf 18
  uncompressedSize := u32 buf 22
  fileNameLength := u16 buf 26
  extraFieldLength := u16 buf 28

end LocalFileHeader

/-- `DataDescriptor`. -/
structure DataDescriptor where
  crc32 : UInt32
  compressedSize : UInt32
  uncompressedSize : UInt32
deriving DecidableEq, Repr

namespace DataDescriptor

/-- `DataDescriptor::kOptSignature`. -/
def kOptSignature : UInt32 := 0x08074b50

/-- `sizeof(DataDescriptor)`. -/
def size : Nat := 12

def encode (r : DataDescriptor) : List UInt8 :=
  bytes32 r.crc32 ++ (bytes32 r.compressedSize ++ bytes32 r.uncompressedSize)

def decode (buf : List UInt8) : DataDescriptor where
  crc32 := u32 buf 0
  compressedSize := u32 buf 4
  uncompressedSize := u32 buf 8

end DataDescriptor

/-- `kGPBDDFlagMask`: the entry has a data descriptor. -/
def kGPBDDFlagMask : UInt16 := 0x0008

/-- `kMaxCommentLen`. -/
def kMaxCommentLen : Nat := 65535

/-- `kCompressStored`. -/
def kCompressStored : UInt16 := 0

/-- `kCompressDeflated`. -/
def kCompressDeflated : UInt16 := 8

/-! ### `entry_name_utils-inl.h` -/

/-- The continuation bytes of a sequence, one for each set bit at the top of `first`; `none`
if one is missing or invalid. Eight shifts leave no bit. -/
def skipContinuation : Nat → UInt8 → List UInt8 → Option (List UInt8)
  | 0, _, rest => some rest
  | k + 1, first, rest =>
    if first &&& 0x80 = 0 then some rest
    else
      match rest with
      | [] => none
      | byte :: rest =>
        if byte &&& 0xc0 ≠ 0x80 then none else skipContinuation k (first <<< 1) rest

/-- The loop of `IsValidEntryName`, which every round takes at least one byte of. -/
def isValidEntryNameLoop : Nat → List UInt8 → Bool
  | 0, _ => true
  | _ + 1, [] => true
  | k + 1, byte :: rest =>
    if byte = 0 then false
    else if byte &&& 0x80 = 0 then isValidEntryNameLoop k rest
    else if byte &&& 0xc0 = 0x80 ∨ byte &&& 0xfe = 0xfe then false
    else
      match skipContinuation 8 (byte <<< 1) rest with
      | none => false
      | some rest => isValidEntryNameLoop k rest

/-- `IsValidEntryName`: valid UTF-8, and no zero byte. -/
def isValidEntryName (name : List UInt8) : Bool := isValidEntryNameLoop name.length name

end AndroidCore.Libziparchive
