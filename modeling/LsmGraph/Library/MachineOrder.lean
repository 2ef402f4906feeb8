import Mathlib.Order.Defs.LinearOrder
import Mathlib.Order.MinMax
import Mathlib.Data.Fintype.EquivFin

/-! # Linear orders on fixed-width integers

`UInt64`, `UInt32`, `Int32` and `Int64` come with a decidable `≤` and the laws of a linear order, but
not with the bundled `LinearOrder` that lexicographic products and sorting lemmas ask for. The
instances keep the existing `≤` and `<`, so nothing about the machine types changes. -/

instance UInt64.instLinearOrder : LinearOrder UInt64 where
  le_refl := UInt64.le_refl
  le_trans _ _ _ := UInt64.le_trans
  lt_iff_le_not_ge a b := by rw [UInt64.not_le]; exact ⟨fun h => ⟨UInt64.le_of_lt h, h⟩, And.right⟩
  le_antisymm _ _ := UInt64.le_antisymm
  le_total := UInt64.le_total
  toDecidableLE := inferInstance
  toDecidableEq := inferInstance
  toDecidableLT := inferInstance

instance UInt32.instLinearOrder : LinearOrder UInt32 where
  le_refl := UInt32.le_refl
  le_trans _ _ _ := UInt32.le_trans
  lt_iff_le_not_ge a b := by rw [UInt32.not_le]; exact ⟨fun h => ⟨UInt32.le_of_lt h, h⟩, And.right⟩
  le_antisymm _ _ := UInt32.le_antisymm
  le_total := UInt32.le_total
  toDecidableLE := inferInstance
  toDecidableEq := inferInstance
  toDecidableLT := inferInstance

instance Int32.instLinearOrder : LinearOrder Int32 where
  le_refl := Int32.le_refl
  le_trans _ _ _ := Int32.le_trans
  lt_iff_le_not_ge a b := by rw [Int32.not_le]; exact ⟨fun h => ⟨Int32.le_of_lt h, h⟩, And.right⟩
  le_antisymm _ _ := Int32.le_antisymm
  le_total := Int32.le_total
  toDecidableLE := inferInstance
  toDecidableEq := inferInstance
  toDecidableLT := inferInstance

instance Int64.instLinearOrder : LinearOrder Int64 where
  le_refl := Int64.le_refl
  le_trans _ _ _ := Int64.le_trans
  lt_iff_le_not_ge a b := by rw [Int64.not_le]; exact ⟨fun h => ⟨Int64.le_of_lt h, h⟩, And.right⟩
  le_antisymm _ _ := Int64.le_antisymm
  le_total := Int64.le_total
  toDecidableLE := inferInstance
  toDecidableEq := inferInstance
  toDecidableLT := inferInstance

/-- The maximum of a list of `UInt64` is its largest member. -/
instance UInt64.instLawfulOrderMax : Std.LawfulOrderMax UInt64 :=
  .of_max_le_iff (fun _ _ _ => max_le_iff) fun a b => max_choice a b

/-- And the minimum its smallest. -/
instance UInt64.instLawfulOrderMin : Std.LawfulOrderMin UInt64 :=
  .of_le_min_iff (fun _ _ _ => le_min_iff) fun a b => min_choice a b

/-- There are finitely many `UInt64`, so no ascent among them goes on for ever. -/
instance UInt64.instFinite : Finite UInt64 :=
  Finite.of_injective UInt64.toFin fun _ _ => UInt64.toFin_inj.mp
