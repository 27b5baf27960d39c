import CppPrivate.Http.MultipartParser
import CppPrivate.Lib.Restart

/-! A reader of multipart bodies. It reads byte by byte, with the texts it has gathered in place
of marks and a look behind, and hands out the data of a part as soon as it is known. -/
namespace CppPrivate.Http

/-- What separates the data of a part from what follows; `b` is the boundary with its hyphens. -/
def delimiter (b : Bytes) : Bytes := CR :: LF :: b

def opening (b : Bytes) : Bytes := b ++ [CR, LF]

/-- Where the reader is: how much of a line or of a delimiter it has read, and which text. -/
inductive Mode where
  | opening (k : Nat)
  | field (name : Bytes)
  | headersDone
  | valueStart
  | value (text : Bytes)
  | valueDone
  | dataStart
  | data (k : Nat)
  | dataDone
  | nextPart
  | hyphen
  | finished
deriving DecidableEq

namespace Mode

/-- A byte of the data, after `k` bytes of the delimiter. -/
def readData (b : Bytes) (k : Nat) (c : UInt8) : Mode × List Callback :=
  if (delimiter b)[k]? = some c then
    if k + 1 = (delimiter b).length then (.dataDone, [.part_data_end]) else (.data (k + 1), [])
  else if c = CR then (.data 1, [.part_data ((delimiter b).take k)])
  else (.data 0, [.part_data ((delimiter b).take k ++ [c])])

def read (b : Bytes) (c : UInt8) : Mode → Option (Mode × List Callback)
  | .opening k =>
    if (Http.opening b)[k]? = some c then
      if k + 1 = (Http.opening b).length then some (.field [], [.part_data_begin])
      else some (.opening (k + 1), [])
    else none
  | .field name =>
    if c = CR then some (.headersDone, [])
    else if c = 58 then some (.valueStart, [.header_field name])
    else if isFieldChar c then some (.field (name ++ [c]), [])
    else none
  | .headersDone => if c = LF then some (.dataStart, []) else none
  | .valueStart =>
    if c = 32 then some (.valueStart, [])
    else if c = CR then some (.valueDone, [.header_value []])
    else some (.value [c], [])
  | .value text =>
    if c = CR then some (.valueDone, [.header_value text]) else some (.value (text ++ [c]), [])
  | .valueDone => if c = LF then some (.field [], []) else none
  | .dataStart => some ((readData b 0 c).1, .headers_complete :: (readData b 0 c).2)
  | .data k => some (readData b k c)
  | .dataDone =>
    if c = 45 then some (.hyphen, []) else if c = CR then some (.nextPart, []) else none
  | .hyphen => if c = 45 then some (.finished, [.body_end]) else none
  | .nextPart => if c = LF then some (.field [], [.part_data_begin]) else none
  | .finished => some (.finished, [])

/-- The reader's way through a text, with the calls it makes. -/
def run (b : Bytes) : Mode → Bytes → Option (Mode × List Callback)
  | m, [] => some (m, [])
  | m, c :: x => (m.read b c).bind fun r => (run b r.1 x).map fun s => (s.1, r.2 ++ s.2)

variable {b x y : Bytes} {c : UInt8} {m m' m'' : Mode} {calls calls' : List Callback}

theorem run_cons (h : m.read b c = some (m', calls)) :
    run b m (c :: x) = (run b m' x).map fun s => (s.1, calls ++ s.2) := by
  rw [run, h]
  rfl

/-- A way begins with the reading of a byte. -/
theorem run_cons_inv (h : run b m (c :: x) = some (m', calls)) : ∃ m₁ calls₁ calls₂,
    m.read b c = some (m₁, calls₁) ∧ run b m₁ x = some (m', calls₂) ∧ calls = calls₁ ++ calls₂ := by
  rw [run] at h
  obtain ⟨⟨m₁, calls₁⟩, hr, h⟩ := Option.bind_eq_some_iff.mp h
  obtain ⟨⟨m₂, calls₂⟩, hs, h⟩ := Option.map_eq_some_iff.mp h
  obtain ⟨rfl, rfl⟩ := Prod.mk.inj h
  exact ⟨m₁, calls₁, calls₂, hr, hs, rfl⟩

theorem run_append (h : run b m x = some (m', calls)) :
    run b m (x ++ y) = (run b m' y).map fun s => (s.1, calls ++ s.2) := by
  induction x generalizing m calls with
  | nil =>
    obtain ⟨rfl, rfl⟩ := Prod.mk.inj (Option.some.inj h)
    exact (Option.map_id' (x := run b m y)).symm
  | cons c x ih =>
    obtain ⟨m₁, calls₁, calls₂, hr, hs, rfl⟩ := run_cons_inv h
    rw [List.cons_append, run_cons hr, ih hs, Option.map_map]
    congr 1
    funext s'
    simp

theorem run_trans (h : run b m x = some (m', calls)) (h' : run b m' y = some (m'', calls')) :
    run b m (x ++ y) = some (m'', calls ++ calls') := by
  rw [run_append h, h']
  rfl

theorem run_single (h : m.read b c = some (m', calls)) : run b m [c] = some (m', calls) := by
  rw [run_cons h, run]
  simp

/-- A text that is read to its end, or up to the first byte that cannot be read. -/
theorem run_cases (b : Bytes) (m : Mode) (x : Bytes) : (∃ r, run b m x = some r) ∨
    ∃ y c z m' calls, x = y ++ c :: z ∧ run b m y = some (m', calls) ∧ m'.read b c = none := by
  induction x generalizing m with
  | nil => exact Or.inl ⟨_, rfl⟩
  | cons c x ih =>
    cases hread : m.read b c with
    | none => exact Or.inr ⟨[], c, x, m, [], rfl, rfl, hread⟩
    | some r =>
      obtain ⟨m₁, calls₁⟩ := r
      cases ih m₁ with
      | inl h =>
        obtain ⟨s, hs⟩ := h
        left
        rw [run_cons hread, hs]
        exact ⟨_, rfl⟩
      | inr h =>
        obtain ⟨y, d, z, m', calls, rfl, hrun, hnone⟩ := h
        refine Or.inr ⟨c :: y, d, z, m', calls₁ ++ calls, rfl, ?_, hnone⟩
        rw [run_cons hread, hrun]
        rfl

theorem run_none (h : run b m y = some (m', calls)) (hc : m'.read b c = none) :
    run b m (y ++ c :: x) = none := by
  rw [run_append h, run, hc]
  rfl

end Mode

end CppPrivate.Http
