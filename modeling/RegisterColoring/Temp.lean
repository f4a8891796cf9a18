import RegisterColoring.Text
import Std.Data.ExtTreeSet

/-! Temporaries and finite sets of them. A set is listed in ascending order of serials, and two
sets with the same members are equal. -/
namespace RegisterColoring

/-- A temporary of a listing, told apart by its serial number. -/
structure Temp where
  serial : UInt32
deriving DecidableEq

namespace Temp

instance : Ord Temp := ⟨compareOn Temp.serial⟩

instance : Std.TransOrd Temp := inferInstanceAs (Std.TransCmp (compareOn Temp.serial))

instance : Std.LawfulEqOrd Temp where
  eq_of_compare {a b} h := by
    have hs : compare a.serial b.serial = .eq := h
    cases a; cases b
    simpa using Std.LawfulEqOrd.eq_of_compare hs

instance : LT Temp := ⟨fun a b => a.serial < b.serial⟩

instance (a b : Temp) : Decidable (a < b) := inferInstanceAs (Decidable (a.serial < b.serial))

/-- The order of the sets is the order of the serials. -/
theorem compare_eq_lt {a b : Temp} : compare a b = .lt ↔ a < b :=
  show compare a.serial b.serial = .lt ↔ a.serial < b.serial from Std.compare_eq_lt

def text (t : Temp) : String := "t" ++ t.serial.toNat.repr

end Temp

abbrev TempSet := Std.ExtTreeSet Temp

namespace TempSet

def ofTemps (ts : List Temp) : TempSet := Std.ExtTreeSet.ofList ts

@[simp] theorem mem_ofTemps {ts : List Temp} {t : Temp} : t ∈ ofTemps ts ↔ t ∈ ts := by
  simp [ofTemps]

/-- The union of the sets that `f` gives for the items of a list. -/
def unionMap {α : Type} (f : α → TempSet) (xs : List α) : TempSet :=
  xs.foldl (fun union x => union ∪ f x) ∅

private theorem mem_foldl_union {α : Type} {f : α → TempSet} {xs : List α} {start : TempSet}
    {t : Temp} :
    t ∈ xs.foldl (fun union x => union ∪ f x) start ↔ t ∈ start ∨ ∃ x ∈ xs, t ∈ f x := by
  induction xs generalizing start with
  | nil => simp
  | cons x xs ih => simp [ih, or_assoc]

@[simp] theorem mem_unionMap {α : Type} {f : α → TempSet} {xs : List α} {t : Temp} :
    t ∈ unionMap f xs ↔ ∃ x ∈ xs, t ∈ f x := by
  simp [unionMap, mem_foldl_union]

def text (s : TempSet) : String := braced (s.toList.map Temp.text)

end TempSet
end RegisterColoring
