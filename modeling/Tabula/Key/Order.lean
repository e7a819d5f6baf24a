import Std.Data.ExtTreeMap
import Tabula.Key

/-!
An order on keys, for the search tree of a table: integers, other numbers, strings. It tells all keys apart.
-/

namespace Tabula.Key

def rank : Key → Nat
  | int _ => 0
  | float (.nan ..) => 1
  | float (.infinity _) => 2
  | float (.finite ..) => 3
  | str _ => 4

/-- The integer, or the sign and significand of another number. -/
def leading : Key → Int
  | int i => i
  | float (.nan s signaling) => 2 * s.toNat + signaling.toNat
  | float (.infinity s) => s.toNat
  | float (.finite s m _ _) => 2 * m + s.toNat
  | str _ => 0

def exponent : Key → Nat
  | float (.finite _ _ e _) => e
  | _ => 0

def text : Key → String
  | str s => s
  | _ => ""

def order : Key → Key → Ordering :=
  compareLex (compareOn rank) (compareLex (compareOn leading) (compareLex (compareOn exponent) (compareOn text)))

instance : Ord Key := ⟨order⟩

instance : Std.TransCmp order := by unfold order; infer_instance

instance : Std.TransOrd Key := inferInstanceAs (Std.TransCmp order)

theorem eq_of_coordinates {a b : Key} (hr : a.rank = b.rank) (hl : a.leading = b.leading)
    (he : a.exponent = b.exponent) (ht : a.text = b.text) : a = b := by
  rcases a with i | (⟨s, p⟩ | s | ⟨s, m, e, h⟩) | s <;> rcases b with j | (⟨t, q⟩ | t | ⟨t, n, f, h'⟩) | t <;>
    simp only [rank, leading, exponent, text] at hr hl he ht <;> try contradiction
  · rw [hl]
  · cases s <;> cases t <;> cases p <;> cases q <;> first | rfl | contradiction
  · cases s <;> cases t <;> first | rfl | contradiction
  · have hs : s = t := by cases s <;> cases t <;> first | rfl | (simp at hl; omega)
    subst hs he
    have hm : m = n := by omega
    subst hm
    rfl
  · rw [ht]

instance : Std.LawfulEqOrd Key where
  eq_of_compare := by
    intro a b h
    have h : order a b = .eq := h
    simp only [order, compareLex_eq_eq, compareOn, Std.LawfulEqOrd.compare_eq_iff_eq] at h
    exact eq_of_coordinates h.1 h.2.1 h.2.2.1 h.2.2.2

end Tabula.Key
