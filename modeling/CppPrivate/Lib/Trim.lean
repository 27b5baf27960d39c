import Mathlib.Data.List.DropRight
import Mathlib.Data.List.Infix

/-! A list without what passes a test at both of its ends. -/
namespace CppPrivate
variable {α : Type*} {p : α → Bool} {a b s t : List α}

def trimBoth (p : α → Bool) (s : List α) : List α := (s.rdropWhile p).dropWhile p

theorem rdropWhile_append_right (h : ∀ c ∈ b, p c) : (s ++ b).rdropWhile p = s.rdropWhile p := by
  have hnil : b.reverse.dropWhile p = [] := by
    rw [List.dropWhile_eq_nil_iff]
    intro c hc
    exact h c (List.mem_reverse.mp hc)
  rw [List.rdropWhile, List.reverse_append, List.dropWhile_append, hnil]
  rfl

theorem rdropWhile_append_left (h : ∃ c ∈ t, ¬ p c) :
    (s ++ t).rdropWhile p = s ++ t.rdropWhile p := by
  have hne : t.reverse.dropWhile p ≠ [] := by
    rw [Ne, List.dropWhile_eq_nil_iff]
    intro hall
    obtain ⟨c, hc, hp⟩ := h
    exact hp (hall c (List.mem_reverse.mpr hc))
  rw [List.rdropWhile, List.reverse_append, List.dropWhile_append,
    if_neg (by rw [List.isEmpty_iff]; exact hne), List.reverse_append, List.reverse_reverse]
  rfl

theorem trimBoth_append_right (h : ∀ c ∈ b, p c) : trimBoth p (s ++ b) = trimBoth p s := by
  rw [trimBoth, rdropWhile_append_right h]
  rfl

theorem trimBoth_of_all (h : ∀ c ∈ s, p c) : trimBoth p s = [] := by
  rw [trimBoth, List.rdropWhile_eq_nil_iff.mpr h]
  rfl

theorem trimBoth_append_left (h : ∀ c ∈ a, p c) : trimBoth p (a ++ t) = trimBoth p t := by
  by_cases ht : ∃ c ∈ t, ¬ p c
  · rw [trimBoth, rdropWhile_append_left ht, List.dropWhile_append_of_pos h]
    rfl
  · have hall : ∀ c ∈ t, p c := by
      intro c hc
      by_contra hp
      exact ht ⟨c, hc, hp⟩
    rw [trimBoth_append_right hall, trimBoth_of_all h, trimBoth_of_all hall]

/-- A list that begins outside of the test is trimmed at its end only. -/
theorem trimBoth_append {c : α} (hc : ¬ p c) (ht : ∃ c ∈ t, ¬ p c) :
    trimBoth p (c :: s ++ t) = c :: s ++ t.rdropWhile p := by
  rw [trimBoth, rdropWhile_append_left ht, List.cons_append, List.dropWhile_cons_of_neg hc]

theorem trimBoth_rdropWhile (p : α → Bool) (s : List α) :
    trimBoth p (s.rdropWhile p) = trimBoth p s := by
  rw [trimBoth, List.rdropWhile_idempotent]
  rfl

theorem trimBoth_within (p : α → Bool) (s : List α) : trimBoth p s <:+: s :=
  (List.dropWhile_suffix p).isInfix.trans (List.rdropWhile_prefix p s).isInfix

theorem head_trimBoth {c : α} (h : c ∈ (trimBoth p s).head?) : ¬ p c := by
  have hnot := List.head?_dropWhile_not p (s.rdropWhile p)
  rw [trimBoth] at h
  rw [Option.mem_def.mp h] at hnot
  simpa using hnot

/-- Nothing is trimmed from a list that begins and ends outside of the test, and only from
others. -/
theorem trimBoth_eq_self_iff :
    trimBoth p s = s ↔ (∀ c ∈ s.head?, ¬ p c) ∧ ∀ c ∈ s.getLast?, ¬ p c := by
  constructor
  · intro h
    refine ⟨fun c hc => head_trimBoth (by rw [h]; exact hc), ?_⟩
    have hlen := (List.dropWhile_suffix p (l := s.rdropWhile p)).length_le
    have hself : s.rdropWhile p = s := by
      refine (List.rdropWhile_prefix p s).eq_of_length_le ?_
      have hlength := congrArg List.length h
      rw [trimBoth] at hlength
      omega
    intro c hc
    obtain ⟨hne, rfl⟩ := List.mem_getLast?_eq_getLast hc
    exact List.rdropWhile_eq_self_iff.mp hself hne
  · intro h
    obtain ⟨hhead, hlast⟩ := h
    have hself : s.rdropWhile p = s := by
      rw [List.rdropWhile_eq_self_iff]
      exact fun hne => hlast _ (List.getLast?_eq_some_getLast hne)
    rw [trimBoth, hself]
    cases s with
    | nil => rfl
    | cons c s => exact List.dropWhile_cons_of_neg (hhead c rfl)

theorem trimBoth_trimBoth (p : α → Bool) (s : List α) :
    trimBoth p (trimBoth p s) = trimBoth p s := by
  refine trimBoth_eq_self_iff.mpr ⟨fun c hc => head_trimBoth hc, ?_⟩
  intro c hc
  obtain ⟨u, hu⟩ := List.dropWhile_suffix p (l := s.rdropWhile p)
  have hlast : c ∈ (s.rdropWhile p).getLast? := by
    rw [← hu, List.getLast?_append]
    rw [trimBoth] at hc
    rw [Option.mem_def.mp hc]
    rfl
  obtain ⟨hne, rfl⟩ := List.mem_getLast?_eq_getLast hlast
  exact List.rdropWhile_last_not p s hne

end CppPrivate
