import Lucario.Memory

namespace Lucario

def storeSector (track cylinder sector : Nat) (data : Int) (m : Machine) : Machine :=
  { m with disk := fun t c s =>
      if t = track ∧ c = cylinder ∧ s = sector then data else m.disk t c s }

/-- One turn of the `dmaInit` loop: the transfer the device performs for a pending request. -/
def dmaTransfer (m : Machine) : Machine :=
  let d := m.dma
  let result : Except MemoryStatus Machine :=
    if d.ioDirection = 1 then
      (dmaReadMemory d.memAddr m).map (fun data => storeSector d.track d.cylinder d.sector data m)
    else dmaWriteMemory d.memAddr (m.disk d.track d.cylinder d.sector) m
  match result with
  | .ok m => raiseInterrupt .ioDone
      { m with dma := { m.dma with status := 0, active := false, pending := false } }
  | .error _ => raiseInterrupt .invalidAddr
      { m with dma := { m.dma with status := 1, active := false, pending := false } }

end Lucario
