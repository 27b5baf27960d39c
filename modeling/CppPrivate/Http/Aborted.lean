import CppPrivate.Http.Abort

/-! What `IsAborted` can tell. The index starts at its greatest value, and the calls of `Next`
and the ends of handlers that raise it are not told apart from a call of `Abort`. -/
namespace CppPrivate.Http
open CppPrivate.Run

/-- How often the index has been raised since the last call of `Abort`, or since the start. -/
def raised (calls : List Call) : Nat :=
  (calls.reverse.takeWhile (· ≠ .Abort)).countP Call.raises

/-- The index lies on the side that the calls of `Abort` so far ask for. -/
def Discernible (calls : List Call) : Prop :=
  if .Abort ∈ calls then raised calls % 2 ^ 64 < 2 ^ 64 - 63
  else 1 ≤ raised calls % 2 ^ 64 ∧ raised calls % 2 ^ 64 ≤ 63

instance (calls : List Call) : Decidable (Discernible calls) :=
  inferInstanceAs (Decidable (if .Abort ∈ calls then raised calls % 2 ^ 64 < 2 ^ 64 - 63
    else 1 ≤ raised calls % 2 ^ 64 ∧ raised calls % 2 ^ 64 ≤ 63))

@[simp] theorem raised_Abort (calls : List Call) : raised (calls ++ [.Abort]) = 0 := by
  simp [raised]

theorem raised_snoc {call : Call} (calls : List Call) (h : call ≠ .Abort) :
    raised (calls ++ [call]) = raised calls + if call.raises then 1 else 0 := by
  simp [raised, h, List.countP_cons]

variable {σ : Type*} {handlers : HandlersChain σ} {world : σ} {c : Config σ} {calls : List Call}

namespace Config

/-- The index counts from 63 after a call of `Abort`, and from -1 before the first one. -/
theorem index_eq (h : Reaches handlers (.new world) calls c) :
    c.state.index.toNat =
      ((if .Abort ∈ calls then 63 else 2 ^ 64 - 1) + raised calls) % 2 ^ 64 := by
  apply h.history fun calls (c : Config σ) => c.state.index.toNat =
    ((if .Abort ∈ calls then 63 else 2 ^ 64 - 1) + raised calls) % 2 ^ 64
  · rfl
  · intro calls c call d hc _ hstep
    cases index_step hstep with
    | inl habort =>
      obtain ⟨rfl, hd⟩ := habort
      simp [hd]
    | inr hother =>
      obtain ⟨hne, hd⟩ := hother
      have hmem : Call.Abort ∈ calls ++ [call] ↔ .Abort ∈ calls := by
        simp [hne.symm]
      simp only [hmem, raised_snoc calls hne]
      rw [hd, hc]
      split <;> omega

/-- `IsAborted` tells at every point of a request whether `Abort` has been called, if and only
if the index lies on the side that the calls so far ask for. -/
theorem isAborted_tells (h : Reaches handlers (.new world) calls c) :
    (c.state.IsAborted = true ↔ .Abort ∈ calls) ↔ Discernible calls := by
  have hidx := index_eq h
  have hle : c.state.IsAborted = true ↔ 63 ≤ c.state.index.toNat := by
    simp [ChainState.IsAborted, UInt64.le_iff_toNat_le, abortIndex]
  rw [hle, hidx, Discernible]
  have hmod : raised calls % 2 ^ 64 < 2 ^ 64 := Nat.mod_lt _ (by decide)
  split
  · rename_i hmem
    simp only [hmem, iff_true]
    omega
  · rename_i hmem
    simp only [hmem, iff_false]
    omega

end Config

/-- In the first handler, after it has called `Abort`. -/
theorem isAborted_tells_test : ∃ c,
    Config.Reaches [Deny, GET_TEST] (.new ()) [.Next, .test, .Abort] c ∧
    (c.state.IsAborted = true ↔ .Abort ∈ [Call.Next, .test, .Abort]) := by
  have hrun : Config.Reaches [Deny, GET_TEST] (.new ()) [.Next, .test, .Abort] _ :=
    runs_of_exec rfl
  exact ⟨_, hrun, (Config.isAborted_tells hrun).mpr (by decide)⟩

/-- The first `k` handlers of a chain run one after the other. -/
theorem reaches_plain (n k : Nat) (hk : k ≤ n) (hn : n < 2 ^ 64) : ∃ s,
    Config.Reaches (List.replicate n GET_TEST) (.new ())
      (.Next :: (List.replicate k [Call.test, .finish]).flatten) ⟨s, .test, []⟩ ∧
    s.index.toNat = k := by
  induction k with
  | zero => exact ⟨_, Config.Reaches.one rfl, rfl⟩
  | succ k ih =>
    obtain ⟨s, hs, hidx⟩ := ih (Nat.le_of_succ_le hk)
    have hlt : s.index.toNat < (List.replicate n GET_TEST).length := by
      rw [hidx, List.length_replicate]
      exact hk
    have htest : Config.step (List.replicate n GET_TEST) ⟨s, .test, []⟩ .test =
        some ⟨s.note (.start s.index.toNat), .body s.index.toNat (.finish ()), []⟩ := by
      have hget : (List.replicate n GET_TEST)[s.index.toNat]? = some GET_TEST := by
        rw [List.getElem?_eq_getElem hlt, List.getElem_replicate]
      simp only [Config.step, hget]
      rfl
    let t := (((s.note (.start s.index.toNat)).setWorld ()).note (.finish s.index.toNat)).advance
    have hfinish : Config.step (List.replicate n GET_TEST)
        ⟨s.note (.start s.index.toNat), .body s.index.toNat (.finish ()), []⟩ .finish =
          some ⟨t, .test, []⟩ := rfl
    have ht : t.index.toNat = (s.index.toNat + 1) % 2 ^ 64 := advance_toNat _
    refine ⟨t, ?_, by omega⟩
    rw [List.replicate_succ', List.flatten_append, ← List.cons_append]
    exact hs.append ((Config.Reaches.one htest).next hfinish)

/-- Nobody calls `Abort`, but the context counts as aborted before the first call of `Next` and
when 63 handlers have finished. -/
theorem isAborted_unasked :
    (Config.new () : Config Unit).state.IsAborted = true ∧
    ∃ calls c, Config.Reaches (List.replicate 63 GET_TEST) (.new ()) calls c ∧
      .Abort ∉ calls ∧ c.state.IsAborted = true := by
  obtain ⟨s, hs, hidx⟩ := reaches_plain 63 63 (Nat.le_refl _) (by decide)
  refine ⟨by decide, _, _, hs, by decide, ?_⟩
  simp [ChainState.IsAborted, UInt64.le_iff_toNat_le, abortIndex, hidx]

end CppPrivate.Http
