import Lucario.Dma
import Lucario.System

namespace Lucario

/-- The host's files by path, as `fopen` finds them. -/
abbrev Host := List Char → Option (List Char)

/-- `VFSStatus_t`. -/
inductive VfsStatus where
  | success | notFound | diskFull
  deriving DecidableEq, Repr

abbrev isSector (track cylinder sector : Nat) : Prop :=
  track < diskTracks ∧ cylinder < diskCylinders ∧ sector < diskSectors

/-- `none` is `DISK_ERR_OUT_OF_BOUNDS`, which also clears the caller's buffer. -/
def readSector (track cylinder sector : Nat) (m : Machine) : Option Int :=
  if ¬ isSector track cylinder sector then none else some (m.disk track cylinder sector)

/-- `none` is `DISK_ERR_OUT_OF_BOUNDS`. -/
def writeSector (track cylinder sector : Nat) (data : Int) (m : Machine) : Option Machine :=
  if ¬ isSector track cylinder sector then none
  else some (storeSector track cylinder sector data m)

def matchesEntry (identifier : List Char) (e : FileMeta) : Bool :=
  e.filePath = identifier || e.programName = identifier

def vfsFileExists (identifier : List Char) (v : Vfs) : Bool :=
  v.diskCatalog.any (matchesEntry identifier)

def vfsGetMetadata (identifier : List Char) (v : Vfs) : Option FileMeta :=
  v.diskCatalog.find? (matchesEntry identifier)

def vfsRegisterFile (entry : FileMeta) (v : Vfs) : VfsStatus × Vfs :=
  if maxProcesses ≤ v.diskCatalog.length then (.diskFull, v)
  else
    let entry := { entry with
      filePath := strncpy255 entry.filePath
      programName := strncpy255 entry.programName }
    (.success, { v with diskCatalog := v.diskCatalog ++ [entry] })

/-- `vfsClearCatalog`. -/
def Vfs.empty : Vfs := ⟨[], 0, 0, 0⟩

/-- The loop of `readProgramWord`; every turn reads at least one character. -/
def readProgramLines : Nat → List Char → Int × List Char
  | 0, file => (0, file)
  | _ + 1, [] => (0, [])
  | fuel + 1, file =>
    let (line, rest) := fgets 511 file
    match (scanInt (cutComment (cString line))).1 with
    | some w => (w, rest)
    | none => readProgramLines fuel rest

def readProgramWord (file : List Char) : Int × List Char := readProgramLines file.length file

/-- The three header lines of a program file. -/
structure Header where
  startPC : Int
  wordCount : Int
  programName : List Char

def readHeader (u : Unspecified) (file : List Char) : Header × List Char :=
  let (startPC, file) := scanLabelledInt file
  let (wordCount, file) := scanLabelledInt file
  let (programName, file) := scanLabelledToken file
  ({ startPC := startPC.getD u.startPC
     wordCount := wordCount.getD u.wordCount
     programName := cString (programName.getD u.programName) }, file)

/-- The carry of `vfsLoadToDisk` over the `uint8_t` free position. -/
def advanceFree (v : Vfs) : Vfs :=
  let freeSector := (v.freeSector + 1) % 256
  if diskSectors ≤ freeSector then
    let freeCylinder := (v.freeCylinder + 1) % 256
    if diskCylinders ≤ freeCylinder then
      { v with freeSector := 0, freeCylinder := 0, freeTrack := (v.freeTrack + 1) % 256 }
    else { v with freeSector := 0, freeCylinder := freeCylinder }
  else { v with freeSector := freeSector }

def writeFree (data : Int) (s : System) : System :=
  { s with hw :=
    (writeSector s.vfs.freeTrack s.vfs.freeCylinder s.vfs.freeSector data s.hw).getD s.hw }

/-- The copy loop of `vfsLoadToDisk`, `count` words before its end. -/
def writeProgram : Nat → List Char → System → System
  | 0, _, s => s
  | count + 1, file, s =>
    let (instruction, file) := readProgramWord file
    let s := writeFree instruction s
    writeProgram count file { s with vfs := advanceFree s.vfs }

def totalDiskSectors : Int := diskTracks * diskCylinders * diskSectors

def usedSectors (v : Vfs) : Int :=
  v.freeTrack * diskCylinders * diskSectors + v.freeCylinder * diskSectors + v.freeSector

def vfsLoadToDisk (host : Host) (u : Unspecified) (filePath : List Char) (s : System) :
    VfsStatus × System :=
  if vfsFileExists filePath s.vfs then (.success, s)
  else
    match host filePath with
    | none => (.notFound, s)
    | some file =>
      let (header, file) := readHeader u file
      if totalDiskSectors - usedSectors s.vfs < header.wordCount then (.diskFull, s)
      else
        let entry : FileMeta := {
          filePath := filePath
          programName := header.programName
          startTrack := s.vfs.freeTrack
          startCylinder := s.vfs.freeCylinder
          startSector := s.vfs.freeSector
          wordCount := header.wordCount
          startPC := header.startPC }
        let s := writeProgram header.wordCount.toNat file s
        let (status, v) := vfsRegisterFile entry s.vfs
        (status, { s with vfs := v })

end Lucario
