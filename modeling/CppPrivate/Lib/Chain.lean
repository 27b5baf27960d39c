import Mathlib.Data.List.Nodup
import Mathlib.Logic.Function.Basic

/-! Chains of nodes, each of which names the one that follows it. -/
namespace CppPrivate
variable {α : Type*}

/-- Following `f` from `p` visits the nodes of `l` and arrives at `q`. -/
def Path (f : α → α) : α → List α → α → Prop
  | p, [], q => p = q
  | p, a :: l, q => p = a ∧ Path f (f a) l q

namespace Path
variable {f g : α → α} {p q r a b c : α} {l l' : List α}

theorem append (h : Path f p l q) (h' : Path f q l' r) : Path f p (l ++ l') r := by
  induction l generalizing p with
  | nil =>
    obtain rfl : p = q := h
    exact h'
  | cons a l ih => exact ⟨h.1, ih h.2⟩

theorem split (h : Path f p (l ++ l') r) : ∃ q, Path f p l q ∧ Path f q l' r := by
  induction l generalizing p with
  | nil => exact ⟨p, rfl, h⟩
  | cons a l ih =>
    obtain ⟨q, hl, hl'⟩ := ih h.2
    exact ⟨q, ⟨h.1, hl⟩, hl'⟩

/-- Writes to nodes that are not visited leave the way as it is. -/
theorem congr (h : Path f p l q) (hn : ∀ d ∈ l, g d = f d) : Path g p l q := by
  induction l generalizing p with
  | nil => exact h
  | cons a l ih =>
    refine ⟨h.1, ?_⟩
    rw [hn a List.mem_cons_self]
    exact ih h.2 fun d hd => hn d (List.mem_cons_of_mem a hd)

/-- A node on the way leads to the one after it. -/
theorem next_eq (h : Path f p (l ++ a :: b :: l') q) : f a = b := by
  obtain ⟨m, -, hm⟩ := h.split
  exact hm.2.1

/-- The way up to a node does not depend on where that node leads. -/
theorem redirect (h : Path f p (l ++ [a]) q) (hl : ∀ d ∈ l, g d = f d) :
    Path g p (l ++ [a]) (g a) := by
  obtain ⟨m, hfront, hm⟩ := h.split
  obtain rfl := hm.1
  exact (hfront.congr hl).append ⟨rfl, rfl⟩

theorem insert (h : Path f p (l ++ a :: b :: l') q) (hl : ∀ d ∈ l, g d = f d)
    (hl' : ∀ d ∈ b :: l', g d = f d) (ha : g a = c) (hc : g c = b) :
    Path g p (l ++ a :: c :: b :: l') q := by
  obtain ⟨m, hfront, hm⟩ := h.split
  obtain ⟨rfl, hback⟩ := hm
  obtain rfl := hback.1
  refine (hfront.congr hl).append ⟨rfl, ha, hc, ?_⟩
  exact (hback.congr hl').2

end Path
end CppPrivate
