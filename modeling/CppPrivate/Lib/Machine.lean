import Mathlib.Algebra.Group.Int.Defs
import Mathlib.Algebra.Group.Nat.Defs
import Mathlib.Data.List.Nodup

/-! Fixed-width conversions and indexed access of the C++ code, shared by the containers
of the pools: `int` indices kept in lists, read back as subscripts of a vector. -/
namespace CppPrivate

/-- Conversion of an integer of any type to a 32-bit `int`. -/
def cInt (x : Int) : Int := x.bmod (2 ^ 32)

theorem cInt_of_lt {n : Nat} (h : n < 2 ^ 31) : cInt n = n := by
  rw [cInt, Int.bmod_def]; omega

theorem cInt_inj {m n : Nat} (hm : m < 2 ^ 32) (hn : n < 2 ^ 32) (h : cInt m = cInt n) : m = n := by
  simp only [cInt, Int.bmod_def] at h
  omega

/-- A sum of two numbers of which one has been converted before. -/
theorem cInt_add (x y : Int) : cInt (cInt x + y) = cInt (x + y) := Int.bmod_add_bmod

theorem cInt_lt (x : Int) : cInt x < 2 ^ 31 := by
  simp only [cInt, Int.bmod_def]
  omega

/-- Only an index below `2^31` survives the conversion with its sign. -/
theorem cInt_eq_of_nonneg {n : Nat} (hn : n < 2 ^ 32) (h : 0 ≤ cInt n) : cInt n = n := by
  simp only [cInt, Int.bmod_def] at h ⊢
  omega

/-- A vector read at an `int` subscript: a negative one converts to a size beyond every vector. -/
def at? {α : Type*} (v : List α) (i : Int) : Option α :=
  if 0 ≤ i then v[i.toNat]? else none

section At
variable {α : Type*} {v : List α} {m n : Nat} {i j : Int} {a b c : α}

/-- A write to one element leaves every element of another content. -/
theorem getElem?_set_other (hn : v[n]? = some a) (hm : v[m]? = some b) (hab : a ≠ b) :
    (v.set n c)[m]? = some b := by
  have hne : n ≠ m := by
    intro he
    rw [he, hm] at hn
    exact hab (Option.some.inj hn).symm
  rw [List.getElem?_set_ne hne, hm]

/-- After a write an element is the one that was written, or it was there before. -/
theorem getElem?_set_cases (h : (v.set n c)[m]? = some b) :
    (n = m ∧ b = c) ∨ (n ≠ m ∧ v[m]? = some b) := by
  by_cases hn : n = m
  · subst hn
    have hlen := (List.getElem?_eq_some_iff.mp h).1
    rw [List.getElem?_set_self (by simpa using hlen)] at h
    exact Or.inl ⟨rfl, (Option.some.inj h).symm⟩
  · rw [List.getElem?_set_ne hn] at h
    exact Or.inr ⟨hn, h⟩

/-- An element of another content than the one written was there before. -/
theorem of_getElem?_set (h : (v.set n c)[m]? = some b) (hcb : c ≠ b) : n ≠ m ∧ v[m]? = some b :=
  (getElem?_set_cases h).resolve_left fun he => hcb he.2.symm

theorem getElem?_of_dropLast (h : v.dropLast[m]? = some a) :
    v[m]? = some a ∧ m ≠ v.length - 1 := by
  rw [List.getElem?_dropLast] at h
  split at h
  · exact ⟨h, by omega⟩
  · cases h

theorem getElem?_dropLast_other (hlast : v[v.length - 1]? = some a) (hm : v[m]? = some b)
    (hab : a ≠ b) : v.dropLast[m]? = some b := by
  have hne : m ≠ v.length - 1 := by
    intro he
    rw [he, hlast] at hm
    exact hab (Option.some.inj hm)
  have hlen := (List.getElem?_eq_some_iff.mp hm).1
  rw [List.getElem?_dropLast, if_pos (by omega), hm]

@[simp] theorem at?_natCast (v : List α) (n : Nat) : at? v (n : Int) = v[n]? := by
  simp [at?]

theorem at?_eq_some : at? v i = some a ↔ 0 ≤ i ∧ v[i.toNat]? = some a := by
  rw [at?]
  split
  · simp_all
  · simp only [reduceCtorEq, false_iff, not_and]
    omega

theorem at?_lt (h : at? v i = some a) : 0 ≤ i ∧ i < v.length := by
  obtain ⟨h0, h1⟩ := at?_eq_some.mp h
  obtain ⟨hlt, -⟩ := List.getElem?_eq_some_iff.mp h1
  omega

/-- What is in one place of the vector only is at one subscript only. -/
theorem at?_inj (hinj : ∀ {m n : Nat}, v[m]? = some a → v[n]? = some a → m = n)
    (hi : at? v i = some a) (hj : at? v j = some a) : i = j := by
  obtain ⟨hi0, hiv⟩ := at?_eq_some.mp hi
  obtain ⟨hj0, hjv⟩ := at?_eq_some.mp hj
  have := hinj hiv hjv
  omega

theorem at?_set_self (h : at? v i = some a) : at? (v.set i.toNat b) i = some b := by
  obtain ⟨h0, hlt⟩ := at?_lt h
  have hl : i.toNat < v.length := by omega
  simp [at?, h0, hl]

theorem at?_set_ne (hi : 0 ≤ i) (hij : j ≠ i) : at? (v.set i.toNat b) j = at? v j := by
  unfold at?
  split
  · have hne : i.toNat ≠ j.toNat := by omega
    simp [List.getElem?_set_ne hne]
  · rfl

theorem at?_set_other (hi : at? v i = some a) (hj : at? v j = some b) (hab : a ≠ b) :
    at? (v.set i.toNat c) j = some b := by
  obtain ⟨-, hn⟩ := at?_eq_some.mp hi
  obtain ⟨h0, hm⟩ := at?_eq_some.mp hj
  exact at?_eq_some.mpr ⟨h0, getElem?_set_other hn hm hab⟩

theorem of_at?_set (h : at? (v.set n c) j = some b) (hcb : c ≠ b) :
    j ≠ n ∧ at? v j = some b := by
  obtain ⟨h0, hm⟩ := at?_eq_some.mp h
  obtain ⟨hne, hm⟩ := of_getElem?_set hm hcb
  exact ⟨by omega, at?_eq_some.mpr ⟨h0, hm⟩⟩

theorem at?_dropLast_other (hlast : v[v.length - 1]? = some a) (hj : at? v j = some b)
    (hab : a ≠ b) : at? v.dropLast j = some b := by
  obtain ⟨h0, hm⟩ := at?_eq_some.mp hj
  exact at?_eq_some.mpr ⟨h0, getElem?_dropLast_other hlast hm hab⟩

theorem of_at?_dropLast (h : at? v.dropLast j = some a) : at? v j = some a := by
  obtain ⟨h0, hm⟩ := at?_eq_some.mp h
  exact at?_eq_some.mpr ⟨h0, (getElem?_of_dropLast hm).1⟩

theorem at?_append (w : List α) (h : at? v i = some a) : at? (v ++ w) i = some a := by
  obtain ⟨h0, h1⟩ := at?_eq_some.mp h
  obtain ⟨hlt, -⟩ := List.getElem?_eq_some_iff.mp h1
  exact at?_eq_some.mpr ⟨h0, by rw [List.getElem?_append_left hlt, h1]⟩

end At

/-- A write to one element exchanges its parts for those of the new content. -/
theorem flatMap_set_perm {α β : Type*} (f : α → List β) {v : List α} {n : Nat} {a : α} (b : α)
    (h : v[n]? = some a) : ((v.set n b).flatMap f ++ f a).Perm (v.flatMap f ++ f b) := by
  induction v generalizing n with
  | nil => cases h
  | cons x v ih =>
    cases n with
    | zero =>
      obtain rfl := Option.some.inj h
      simp only [List.set_cons_zero, List.flatMap_cons, List.append_assoc]
      have hswap : (v.flatMap f ++ (f b ++ f x)).Perm (v.flatMap f ++ (f x ++ f b)) :=
        List.perm_append_comm.append_left _
      exact (List.perm_append_comm_assoc _ _ _).trans
        (hswap.trans (List.perm_append_comm_assoc _ _ _))
    | succ n =>
      simp only [List.set_cons_succ, List.flatMap_cons, List.append_assoc]
      exact (ih h).append_left (f x)

/-- `std::list<int>::remove`. -/
def removeIndex (l : List Int) (x : Int) : List Int := l.filter (fun y => decide (y ≠ x))

@[simp] theorem mem_removeIndex {l : List Int} {x y : Int} :
    y ∈ removeIndex l x ↔ y ∈ l ∧ y ≠ x := by
  simp [removeIndex]

theorem nodup_removeIndex {l : List Int} {x : Int} (h : l.Nodup) : (removeIndex l x).Nodup :=
  h.filter _

end CppPrivate
