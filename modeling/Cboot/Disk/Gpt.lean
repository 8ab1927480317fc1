import Cboot.Disk.Ata

/-!
# Partition entries

The entries of the partition table, as `gpt.h` lays them out.
-/

namespace Cboot

/-- An entry of the partition table, of 120 bytes. -/
structure GPTEntry where
  partitionTypeGuid : Fin 16 → UInt8
  uniquePartitionGuid : Fin 16 → UInt8
  startingLba : UInt64
  endingLba : UInt64
  attributes : UInt64
  partitionName : Fin 32 → UInt16

/-- The entry stored at the address `a`. -/
def readGPTEntry (m : Memory) (a : ℕ) : GPTEntry where
  partitionTypeGuid i := m (a + i)
  uniquePartitionGuid i := m (a + 16 + i)
  startingLba := .ofNat (m.read 8 (a + 32))
  endingLba := .ofNat (m.read 8 (a + 40))
  attributes := .ofNat (m.read 8 (a + 48))
  partitionName i := .ofNat (m.read 2 (a + 56 + 2 * i))

end Cboot
