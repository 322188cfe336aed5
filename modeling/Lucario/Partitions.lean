import Lucario.Word

namespace Lucario

@[simp] def partitionSize : Int := (ramSize - osReservedSize) / maxProcesses

def getBaseRegister (startBlock : Int) : Int := osReservedSize + startBlock * partitionSize

def getLimitRegister (rb blockCount : Int) : Int := rb + blockCount * partitionSize - 1

def calculateRequiredBlocks (wordCount : Int) : Int :=
  let total := wordCount + minStackSize
  if total ≤ minStackSize ∨ partitionSize * maxProcesses < total then 0
  else (total + partitionSize - 1).tdiv partitionSize

/-- The scan of `allocateMemory` from index `i` on, `fuel` indices before the end, with
`contiguousCount` free partitions just before `i`. -/
def scanPartitions (free : Int → Bool) (requiredBlocks : Int) : Nat → Int → Int → Option Int
  | 0, _, _ => none
  | fuel + 1, i, contiguousCount =>
    if free i then
      if contiguousCount + 1 = requiredBlocks then some (i - requiredBlocks + 1)
      else scanPartitions free requiredBlocks fuel (i + 1) (contiguousCount + 1)
    else scanPartitions free requiredBlocks fuel (i + 1) 0

/-- `FREE_PARTITIONS[j] = value` for every `j` from `start` on, `count` partitions. -/
def setPartitions (value : Bool) (start count : Int) (free : Int → Bool) : Int → Bool :=
  fun j => if start ≤ j ∧ j < start + count then value else free j

/-- The start index, -1 on failure, and the bitmap afterwards. -/
def allocateMemory (requiredBlocks : Int) (free : Int → Bool) : Int × (Int → Bool) :=
  if requiredBlocks ≤ 0 ∨ maxProcesses < requiredBlocks then (-1, free)
  else
    match scanPartitions free requiredBlocks maxProcesses 0 0 with
    | some startIndex => (startIndex, setPartitions false startIndex requiredBlocks free)
    | none => (-1, free)

/-- `none` is `OS_ERR_MEMORY`. -/
def freeMemory (startBlock blockCount : Int) (free : Int → Bool) : Option (Int → Bool) :=
  if startBlock < 0 ∨ maxProcesses ≤ startBlock ∨ blockCount ≤ 0 ∨
      maxProcesses < startBlock + blockCount then none
  else some (setPartitions true startBlock blockCount free)

end Lucario
