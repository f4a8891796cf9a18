import RegisterColoring.Temp

/-! Supplies of unused temporaries, handed out in ascending order of serials. -/
namespace RegisterColoring

namespace Temp

def lastSerial : UInt32 := 4294967295

/-- One more than a serial, if that is a serial again. -/
def nextSerial? (serial : UInt32) : Option UInt32 :=
  if serial = lastSerial then none else some (serial + 1)

theorem nextSerial?_eq_some_iff {serial next : UInt32} :
    nextSerial? serial = some next ↔ next.toNat = serial.toNat + 1 := by
  have hlast : lastSerial.toNat = 4294967295 := rfl
  have hone : (1 : UInt32).toNat = 1 := rfl
  have hserial := serial.toNat_lt
  have hnext := next.toNat_lt
  unfold nextSerial?
  split
  · next h =>
    rw [← UInt32.toNat_inj] at h
    simp only [reduceCtorEq, false_iff]
    omega
  · next h =>
    rw [← UInt32.toNat_inj] at h
    rw [Option.some.injEq, ← UInt32.toNat_inj, UInt32.toNat_add]
    omega

end Temp

/-- A supply of the temporaries from serial `next` on. -/
structure TempSupply where
  next : UInt32
deriving DecidableEq

namespace TempSupply

def all : TempSupply := ⟨0⟩

/-- How many temporaries lie below the supply. -/
def count (s : TempSupply) : Nat := s.next.toNat

/-- Takes the next temporary out of the supply, if what remains can be written down. -/
def fresh? (s : TempSupply) : Option (Temp × TempSupply) :=
  (Temp.nextSerial? s.next).map fun next => (⟨s.next⟩, ⟨next⟩)

def above? : List Temp → Option TempSupply
  | [] => some all
  | t :: ts => do
    let next ← Temp.nextSerial? t.serial
    let rest ← above? ts
    return ⟨max next rest.next⟩

end TempSupply
end RegisterColoring
