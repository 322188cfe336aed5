import Lucario.Core

namespace Lucario

/-- `diskMap` and `occupiedSectors` of `printDiskStatus`. -/
structure DiskMap where
  sectors : Nat → Nat → Nat → Int
  occupiedSectors : Nat

def DiskMap.empty : DiskMap := ⟨fun _ _ _ => -1, 0⟩

/-- The carry of `printDiskStatus`, over `int`. -/
def SectorCursor.carryOver (c : SectorCursor) : SectorCursor :=
  let sector := c.sector + 1
  if diskSectors ≤ sector then
    let cylinder := c.cylinder + 1
    if diskCylinders ≤ cylinder then ⟨c.track + 1, 0, 0⟩
    else ⟨c.track, cylinder, 0⟩
  else ⟨c.track, c.cylinder, sector⟩

def DiskMap.mark (i : Int) (c : SectorCursor) (m : DiskMap) : DiskMap :=
  if isSector c.track c.cylinder c.sector then
    { sectors := fun track cylinder sector =>
        if track = c.track ∧ cylinder = c.cylinder ∧ sector = c.sector then i
        else m.sectors track cylinder sector
      occupiedSectors := m.occupiedSectors + 1 }
  else m

/-- The loop of `printDiskStatus` over the words of an entry. -/
def markWords (i : Int) : Nat → SectorCursor → DiskMap → DiskMap
  | 0, _, m => m
  | count + 1, c, m => markWords i count c.carryOver (m.mark i c)

/-- The loop of `printDiskStatus` over the catalog, from entry `i` on. -/
def markEntries : Int → List FileMeta → DiskMap → DiskMap
  | _, [], m => m
  | i, e :: entries, m =>
    markEntries (i + 1) entries
      (markWords i e.wordCount.toNat ⟨e.startTrack, e.startCylinder, e.startSector⟩ m)

def diskMap (v : Vfs) : DiskMap := markEntries 0 v.diskCatalog DiskMap.empty

def symbols : List Char := "123456789ABCDEFGHIJKLMNOPQRSTUVWXYZ".toList

def fileSymbol (i : Int) : Char := symbols.getD (i % symbols.length).toNat '\x00'

/-- The file a cell shows: that of its first sector, else that of its second. -/
def displayId (m : DiskMap) (track cylinder sector : Nat) : Int :=
  let fileId1 := m.sectors track cylinder sector
  let fileId2 :=
    if sector + 1 < diskSectors then m.sectors track cylinder (sector + 1) else -1
  if fileId1 ≠ -1 then fileId1 else if fileId2 ≠ -1 then fileId2 else -1

def cellSymbol (displayId : Int) : Char := if displayId = -1 then '.' else fileSymbol displayId

def cellColour (displayId : Int) (globalSector : Nat) : Int :=
  if displayId = -1 then 90
  else if 8642 < globalSector then 31
  else if 5313 < globalSector then 33
  else 32

def coloured (colour : Int) (c : Char) : List Char :=
  "\x1b[".toList ++ showInt colour ++ 'm' :: c :: "\x1b[0m".toList

/-- The text printed so far and `globalSector`. -/
abbrev DiskPrint := List Char × Nat

def printText (text : List Char) (out : DiskPrint) : DiskPrint := (out.1 ++ text, out.2)

def printCell (m : DiskMap) (track cylinder : Nat) (out : DiskPrint) (sector : Nat) : DiskPrint :=
  let id := displayId m track cylinder sector
  let globalSector := out.2 + 10
  (out.1 ++ coloured (cellColour id globalSector) (cellSymbol id), globalSector)

def printCylinder (m : DiskMap) (track : Nat) (out : DiskPrint) (cylinder : Nat) : DiskPrint :=
  let out := if cylinder = diskCylinders / 2 then printText "\n        | ".toList out else out
  let out := (List.range' 0 (diskSectors / 10) 10).foldl (printCell m track cylinder)
    (printText ['['] out)
  printText "] ".toList out

def printTrack (m : DiskMap) (out : DiskPrint) (track : Nat) : DiskPrint :=
  let out := printText (" TRK ".toList ++ showInt2 track ++ " | ".toList) out
  printText ['\n'] ((List.range diskCylinders).foldl (printCylinder m track) out)

/-- `%-20s`. -/
def padded20 (text : List Char) : List Char := text ++ List.replicate (20 - text.length) ' '

def printEntries : Int → List FileMeta → List Char
  | _, [] => []
  | i, e :: entries =>
    "  [".toList ++ coloured 32 (fileSymbol i) ++ "] -> ".toList ++ padded20 e.programName ++
      " (Size: ".toList ++ showInt e.wordCount ++ " words)\n".toList ++ printEntries (i + 1) entries

/-- What `printDiskStatus` prints. -/
def printDiskStatus (v : Vfs) : List Char :=
  let m := diskMap v
  let usagePercent : Int :=
    if 0 < totalDiskSectors then (m.occupiedSectors * 100) / totalDiskSectors else 0
  let rows := (List.range diskTracks).foldl (printTrack m) ([], 0)
  "\n\x1b[34m------------------------- DISK STATUS (diskstat) ".toList ++
    "-------------------------\x1b[0m\n".toList ++
    " \x1b[90m                (Visual Scale: 1 character = 10 sectors)\x1b[0m\n".toList ++
    rows.1 ++
    "--------------------------------------------------------------------------\n".toList ++
    "                 Total Disk Usage: ".toList ++ showInt usagePercent ++ "% (".toList ++
    showInt m.occupiedSectors ++ " / ".toList ++ showInt totalDiskSectors ++ " sectors)\n".toList ++
    (if v.diskCatalog ≠ [] then
      "\n \x1b[33mLoaded Programs:\x1b[0m\n".toList ++ printEntries 0 v.diskCatalog
    else "\n  No programs currently loaded on virtual disk.\n".toList) ++
    ['\n']

end Lucario
