import Mathlib.Algebra.Order.Ring.Int
import Mathlib.Data.List.Lex

/-!
# The order of bytes

Bytes compare as unsigned numbers. With this instance byte strings get the
lexicographic order from the library, which is the order of `std::string`.
-/

instance byteLinearOrder : LinearOrder UInt8 where
  le_refl := UInt8.le_refl
  le_trans _ _ _ := UInt8.le_trans
  lt_iff_le_not_ge a b := by
    rw [UInt8.not_le]
    exact ⟨fun h => ⟨UInt8.le_of_lt h, h⟩, fun h => h.2⟩
  le_antisymm _ _ := UInt8.le_antisymm
  le_total := UInt8.le_total
  toDecidableLE := inferInstance
  toDecidableLT := inferInstance
  toDecidableEq := inferInstance
