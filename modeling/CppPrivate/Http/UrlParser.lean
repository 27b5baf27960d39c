import CppPrivate.Lib.Bytes

/-! The URL scanner of the HTTP server. Each stage works on the text left by the one before it,
which stands for the iterator of the source. -/
namespace CppPrivate.Http

structure URLParser where
  schema : Bytes
  host : Bytes
  port : Int
  path : Bytes
  query : Bytes
deriving DecidableEq

/-- The default constructor, which leaves the port as it finds it. -/
def URLParser.new (port : Int) : URLParser := ⟨[], [], port, [], []⟩

def equal_key (v : UInt8) : Bool := v == 58 || v == 47 || v == 63 || v == 35

def is_question_or_sharp (v : UInt8) : Bool := v == 63 || v == 35

/-- In the "C" locale. -/
def tolower (c : UInt8) : UInt8 := if 65 ≤ c ∧ c ≤ 90 then c + 32 else c

/-- `std::search`: the texts before and after the first occurrence. -/
def search (pat : Bytes) : Bytes → Option (Bytes × Bytes)
  | [] => if pat = [] then some ([], []) else none
  | c :: s =>
    if pat.isPrefixOf (c :: s) then some ([], (c :: s).drop pat.length)
    else (search pat s).map fun u => (c :: u.1, u.2)

/-- `std::find_if`: the texts before and from the first byte that passes. -/
def find_if (p : UInt8 → Bool) (s : Bytes) : Bytes × Bytes :=
  (s.takeWhile fun v => !p v, s.dropWhile fun v => !p v)

def isspace (c : UInt8) : Bool := c == 32 || (9 ≤ c && c ≤ 13)

def digits (s : Bytes) : Int :=
  (s.takeWhile isDigit).foldl (fun n c => 10 * n + (c.toNat - 48 : Int)) 0

/-- `atoi`, with a result of any size. -/
def atoi (s : Bytes) : Int :=
  match s.dropWhile isspace with
  | 45 :: t => -digits t
  | 43 :: t => digits t
  | t => digits t

namespace URLParser

def prot_end : Bytes := bytes "://"

def takeSchema (u : URLParser) (s : Bytes) : URLParser × Bytes :=
  match search prot_end s with
  | some (schema, it) => ({ u with schema := u.schema ++ schema.map tolower }, it)
  | none => (u, s)

def takeHost (u : URLParser) (s : Bytes) : URLParser × Bytes :=
  let (host, it) := find_if equal_key s
  ({ u with host := u.host ++ host.map tolower }, it)

def takePort (u : URLParser) : Bytes → URLParser × Bytes
  | 58 :: s => if s ≠ [] then ({ u with port := atoi s }, (find_if equal_key s).2) else (u, s)
  | s => (u, s)

def takePath (u : URLParser) : Bytes → URLParser × Bytes
  | 47 :: s =>
    let (path, it) := find_if is_question_or_sharp (47 :: s)
    ({ u with path }, it)
  | s => (u, s)

def takeQuery (u : URLParser) : Bytes → URLParser
  | 63 :: s => if s ≠ [] then { u with query := s } else u
  | _ => u

/-- It never fails. -/
def Parse (u : URLParser) (url_s : Bytes) : URLParser :=
  let (u, it) := u.takeSchema url_s
  let (u, it) := u.takeHost it
  if it = [] then u
  else
    let (u, it) := u.takePort it
    let (u, it) := u.takePath it
    u.takeQuery it

end URLParser

theorem search_append {c : UInt8} {pat s : Bytes} (h : c ∉ s) (t : Bytes) :
    search (c :: pat) (s ++ (c :: pat) ++ t) = some (s, t) := by
  induction s with
  | nil => simp [search]
  | cons d s ih =>
    simp only [List.mem_cons, not_or] at h
    have hne : ¬ List.isPrefixOf (c :: pat) (d :: (s ++ (c :: pat) ++ t)) := by
      simp [List.isPrefixOf, h.1]
    simp only [List.cons_append, search]
    rw [if_neg (by simpa using hne)]
    have := ih h.2
    simp only [List.cons_append, List.append_assoc] at this ⊢
    simp [this]

theorem find_if_append {p : UInt8 → Bool} {s : Bytes} (h : ∀ v ∈ s, p v = false) {c : UInt8}
    (hc : p c = true) (t : Bytes) : find_if p (s ++ c :: t) = (s, c :: t) := by
  have hs : ∀ v ∈ s, (!p v) = true := fun v hv => by simp [h v hv]
  rw [find_if]
  rw [List.takeWhile_append_of_pos hs, List.dropWhile_append_of_pos hs]
  simp [hc]

namespace URLParser
variable {u : URLParser}

theorem takeSchema_of {schema : Bytes} (h : 58 ∉ schema) (t : Bytes) :
    u.takeSchema (schema ++ prot_end ++ t) =
      ({ u with schema := u.schema ++ schema.map tolower }, t) := by
  have hs : search prot_end (schema ++ prot_end ++ t) = some (schema, t) := search_append h t
  simp only [takeSchema, hs]

theorem takeHost_of {host : Bytes} (h : ∀ v ∈ host, equal_key v = false) {c : UInt8}
    (hc : equal_key c = true) (t : Bytes) :
    u.takeHost (host ++ c :: t) = ({ u with host := u.host ++ host.map tolower }, c :: t) := by
  simp only [takeHost, find_if_append h hc]

/-- The text after the colon runs up to the next delimiter, which may be a colon again. -/
theorem takePort_of {port : Bytes} (h : ∀ v ∈ port, equal_key v = false) {c : UInt8}
    (hc : equal_key c = true) (t : Bytes) :
    u.takePort (58 :: (port ++ c :: t)) = ({ u with port := atoi (port ++ c :: t) }, c :: t) := by
  have hne : port ++ c :: t ≠ [] := by simp
  simp only [takePort, find_if_append h hc, if_pos hne]

/-- The path and the query of a URI that starts with a slash. -/
theorem take_uri (hq : u.query = []) (s : Bytes) :
    (u.takePath (47 :: s)).1.takeQuery (u.takePath (47 :: s)).2 =
      { u with
        path := (find_if is_question_or_sharp (47 :: s)).1
        query := match (find_if is_question_or_sharp (47 :: s)).2 with
          | 63 :: q => q
          | _ => [] } := by
  simp only [takePath]
  generalize find_if is_question_or_sharp (47 :: s) = r
  obtain ⟨path, it⟩ := r
  unfold takeQuery
  split
  · split
    · rfl
    · rename_i hs
      simp only [ne_eq, not_not] at hs
      simp [hs, hq]
  · simp only [hq]

/-- Where neither a slash nor a question mark follows, nothing is taken. -/
theorem take_none (u : URLParser) (s : Bytes) :
    (u.takePath (58 :: s)).1.takeQuery (u.takePath (58 :: s)).2 = u := rfl

end URLParser
end CppPrivate.Http
