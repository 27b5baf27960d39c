import CppPrivate.Lib.Vec

/-! Memory from `malloc`, and the strings in it that end with a terminator. A cell has no value
until something is written to it; a write outside of the memory has no result. -/
namespace CppPrivate

abbrev Cells (α : Type*) := List (Option α)

namespace Cells
variable {α : Type*} {b b' : Cells α} {s t : List α} {i : Nat} {nul : α}

def malloc (n : Nat) : Cells α := List.replicate n none

def write (b : Cells α) (i : Nat) (s : List α) : Option (Cells α) :=
  if i + s.length ≤ b.length then some (Vec.overlay b i s) else none

/-- The string at the beginning; nothing where a cell without a value is read, or one behind the
end. -/
def cstring [DecidableEq α] (nul : α) : Cells α → Option (List α)
  | some c :: b => if c = nul then some [] else (cstring nul b).map (c :: ·)
  | _ => none

/-- The first cells hold `s`. -/
def Filled (b : Cells α) (s : List α) : Prop := b.take s.length = s.map some

theorem filled_nil (b : Cells α) : b.Filled [] := List.take_zero

theorem Filled.of_append (h : b.Filled (s ++ t)) : b.Filled s := by
  unfold Filled at h ⊢
  have htake := congrArg (List.take s.length) h
  rw [List.length_append, List.take_take, Nat.min_eq_left (Nat.le_add_right _ _), List.map_append,
    ← @List.length_map _ _ s some, List.take_left, List.length_map] at htake
  exact htake

theorem Filled.length_le (h : b.Filled s) : s.length ≤ b.length := by
  have hlen := congrArg List.length h
  rw [List.length_take, List.length_map] at hlen
  omega

/-- A write behind what has been filled fills more. -/
theorem Filled.write (h : b.Filled s) (hle : s.length + t.length ≤ b.length) :
    ∃ b', b.write s.length t = some b' ∧ b'.length = b.length ∧ b'.Filled (s ++ t) := by
  refine ⟨_, if_pos hle, Vec.length_overlay hle, ?_⟩
  have hlen : (s.map some ++ t.map some).length = (s ++ t).length := by simp
  unfold Filled at h ⊢
  rw [Vec.overlay, h, ← List.append_assoc, ← hlen, List.take_left, List.map_append]

theorem cstring_of_filled [DecidableEq α] (h : Filled b (s ++ [nul])) :
    cstring nul b = some (s.takeWhile (· ≠ nul)) := by
  induction s generalizing b with
  | nil =>
    cases b with
    | nil => cases h
    | cons x b =>
      obtain rfl : x = some nul := (List.cons.inj h).1
      rw [cstring, if_pos rfl]
      rfl
  | cons c s ih =>
    cases b with
    | nil => cases h
    | cons x b =>
      obtain ⟨rfl, htail⟩ : x = some c ∧ Filled b (s ++ [nul]) := List.cons.inj h
      rw [cstring]
      split
      · rename_i hc
        rw [List.takeWhile_cons_of_neg (by simpa using hc)]
      · rename_i hc
        rw [List.takeWhile_cons_of_pos (by simpa using hc), ih htail]
        rfl

/-- A terminator behind what has been filled ends the string. -/
theorem Filled.finish [DecidableEq α] (nul : α) (h : b.Filled s) (hle : s.length < b.length) :
    ((b.write s.length [nul]).bind fun b => cstring nul b) =
      some (s.takeWhile (· ≠ nul)) := by
  obtain ⟨b', hb, -, hfilled⟩ := h.write (t := [nul]) hle
  rw [hb, Option.bind_some]
  exact cstring_of_filled hfilled

/-- Without a terminator before the first cell without a value there is no string. -/
theorem cstring_eq_none [DecidableEq α] {n : Nat} (hs : nul ∉ s) :
    cstring nul (s.map some ++ malloc n) = none := by
  induction s with
  | nil => cases n <;> rfl
  | cons c s ih =>
    simp only [List.mem_cons, not_or] at hs
    rw [List.map_cons, List.cons_append, cstring, if_neg (Ne.symm hs.1), ih hs.2]
    rfl

theorem length_flatMap_le {β : Type*} {out : β → List α} {l : List β} {k : Nat}
    (h : ∀ c, (out c).length ≤ k) : (l.flatMap out).length ≤ l.length * k := by
  induction l with
  | nil => simp
  | cons c l ih =>
    have hc := h c
    rw [List.flatMap_cons, List.length_append, List.length_cons, Nat.succ_mul]
    omega

/-- A pass that writes `out c` for each `c` of a list, and may write more on the way. There is room
as long as each `c` finds enough of it. -/
theorem emits {β : Type*} {step : Cells α × Nat → β → Option (Cells α × Nat)} {out : β → List α}
    {need : β → Nat} {size : Nat} {l : List β}
    (hstep : ∀ b acc c, b.length = size → Filled b acc → acc.length + need c ≤ size →
      ∃ b', step (b, acc.length) c = some (b', (acc ++ out c).length) ∧ b'.length = size ∧
        Filled b' (acc ++ out c))
    (hroom : ∀ pre c post, l = pre ++ c :: post → (pre.flatMap out).length + need c ≤ size) :
    ∃ b, l.foldlM step (malloc size, 0) = some (b, (l.flatMap out).length) ∧ b.length = size ∧
      Filled b (l.flatMap out) := by
  have hpass : ∀ pre post b, l = pre ++ post → b.length = size → Filled b (pre.flatMap out) →
      ∃ b', post.foldlM step (b, (pre.flatMap out).length) = some (b', (l.flatMap out).length) ∧
        b'.length = size ∧ Filled b' (l.flatMap out) := by
    intro pre post
    induction post generalizing pre with
    | nil =>
      intro b hl hlen hfilled
      rw [List.append_nil] at hl
      subst hl
      exact ⟨b, rfl, hlen, hfilled⟩
    | cons c post ih =>
      intro b hl hlen hfilled
      obtain ⟨b', hs, hlen', hfilled'⟩ := hstep b _ c hlen hfilled (hroom pre c post hl)
      have hnext : pre.flatMap out ++ out c = (pre ++ [c]).flatMap out := by
        rw [List.flatMap_append, List.flatMap_singleton]
      rw [hnext] at hs hfilled'
      rw [List.foldlM_cons, hs]
      exact ih (pre ++ [c]) b' (by rw [hl, List.append_assoc]; rfl) hlen' hfilled'
  exact hpass [] l _ rfl List.length_replicate (filled_nil _)

end Cells
end CppPrivate
