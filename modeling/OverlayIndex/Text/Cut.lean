/-
Cutting a text at a byte.
-/
import OverlayIndex.Text.Lines

namespace OverlayIndex

/-- The text cut after its first `n` bytes; none if that is past its end or inside a character. -/
def cutAtByte : Nat → List Char → Option (List Char × List Char)
  | 0, cs => some ([], cs)
  | _ + 1, [] => none
  | n + 1, c :: cs =>
    if c.utf8Size ≤ n + 1 then (cutAtByte (n + 1 - c.utf8Size) cs).map fun x => (c :: x.1, x.2)
    else none

theorem cutAtByte_spec {n : Nat} {cs before after : List Char}
    (h : cutAtByte n cs = some (before, after)) : before ++ after = cs ∧ byteLength before = n := by
  fun_induction cutAtByte n cs generalizing before with
  | case1 => simp_all
  | case2 => simp at h
  | case3 n c cs hc ih =>
    simp only [Option.map_eq_some_iff, Prod.mk.injEq] at h
    obtain ⟨x, hx, rfl, rfl⟩ := h
    obtain ⟨h₁, h₂⟩ := ih hx
    simp only [List.cons_append, h₁, byteLength_cons, h₂, true_and]
    omega
  | case4 => simp at h

end OverlayIndex
