import CppPrivate.Pg.Client
import CppPrivate.Lib.Machine

/-! The rows a query answers and the cursor that walks over them. The server's answers are
arguments of the calls. -/
namespace CppPrivate.Pg

inductive ExecStatusType where
  | PGRES_EMPTY_QUERY | PGRES_COMMAND_OK | PGRES_TUPLES_OK | PGRES_COPY_OUT | PGRES_COPY_IN
  | PGRES_BAD_RESPONSE | PGRES_NONFATAL_ERROR | PGRES_FATAL_ERROR | PGRES_COPY_BOTH
  | PGRES_SINGLE_TUPLE
deriving DecidableEq

/-- An answer, with the texts of its fields; libpq counts the rows in an `int`. -/
structure PGresult where
  status : ExecStatusType
  nfields : Nat
  rows : List (List Bytes)
  width : ∀ row ∈ rows, row.length = nfields
  count_lt : rows.length < 2 ^ 31

/-- No answer at all counts as an error. -/
def PQresultStatus (res : Option PGresult) : ExecStatusType :=
  match res with
  | some r => r.status
  | none => .PGRES_FATAL_ERROR

def PQntuples (res : Option PGresult) : Nat := (res.map fun r => r.rows.length).getD 0

def PQnfields (res : Option PGresult) : Nat := (res.map PGresult.nfields).getD 0

/-- The text of a field, or a null pointer outside the table. -/
def PQgetvalue (res : Option PGresult) (tup_num field_num : Int) : Option Bytes := do
  let r ← res
  let row ← at? r.rows tup_num
  at? row field_num

structure CPGResult where
  m_nRowIndex : UInt32
  m_nRowCount : UInt32
  m_pPGResult : Option PGresult

namespace CPGResult

def new : CPGResult := ⟨0, 0, none⟩

def getRows (s : CPGResult) : Nat := PQntuples s.m_pPGResult

def getCols (s : CPGResult) : Nat := PQnfields s.m_pPGResult

def storeResult (s : CPGResult) (res : Option PGresult) : CPGResult :=
  let s := { s with m_pPGResult := res }
  { s with m_nRowCount := UInt32.ofNat s.getRows }

def fetchRow (s : CPGResult) : Bool := if s.m_nRowIndex ≥ s.m_nRowCount then false else true

def rowIndexIncrement (s : CPGResult) : CPGResult := { s with m_nRowIndex := s.m_nRowIndex + 1 }

/-- The value, or that there is none; undefined for a string made of a null pointer. -/
def getValue (s : CPGResult) (nColIndex : Int) : Option (Option Bytes) :=
  if ¬s.fetchRow then some none
  else if nColIndex ≥ s.getCols then some none
  else (PQgetvalue s.m_pPGResult (cInt s.m_nRowIndex.toNat) nColIndex).map some

end CPGResult

/-- `error` is the message the connection has for a failed command. -/
def CPGClient.exec (c : CPGClient) (command : Option Bytes) (res : CPGResult)
    (pgRes : Option PGresult) (error : Bytes) : CPGClient × CPGResult × Bool :=
  if ¬c.m_pPGConn then ({ c with m_sError := bytes "invaild connection" }, res, false)
  else if command.isNone then ({ c with m_sError := bytes "command is null" }, res, false)
  else if PQresultStatus pgRes ≠ .PGRES_TUPLES_OK ∧ PQresultStatus pgRes ≠ .PGRES_COMMAND_OK then
    ({ c with m_sError := error }, res, false)
  else (c, res.storeResult pgRes, true)

namespace CPGResult

def readColumns (s : CPGResult) : Option (List Bytes) :=
  (List.range s.getCols).mapM fun (j : Nat) => (s.getValue j).join

/-- `while (fetchRow()) { read the columns; rowIndexIncrement(); }`, left after `n` rounds at the
latest. The rows are listed with the indices they were read at. -/
def fetchLoop : Nat → CPGResult → Option (CPGResult × List (List Bytes × Nat))
  | 0, s => some (s, [])
  | n + 1, s =>
    if s.fetchRow then do
      let row ← s.readColumns
      let (t, rows) ← fetchLoop n s.rowIndexIncrement
      some (t, (row, s.m_nRowIndex.toNat) :: rows)
    else some (s, [])

/-- What the object holds of a stored result, wherever its cursor is. -/
structure Holds (s : CPGResult) (r : PGresult) : Prop where
  result : s.m_pPGResult = some r
  count : s.m_nRowCount.toNat = r.rows.length

variable {s : CPGResult} {r : PGresult}

theorem holds_storeResult (s : CPGResult) (r : PGresult) : (s.storeResult (some r)).Holds r := by
  have hlt := r.count_lt
  refine ⟨rfl, ?_⟩
  simp only [storeResult, getRows, PQntuples, Option.map_some, Option.getD_some, UInt32.toNat_ofNat']
  omega

theorem Holds.fetchRow_iff (h : s.Holds r) :
    s.fetchRow = true ↔ s.m_nRowIndex.toNat < r.rows.length := by
  simp [fetchRow, UInt32.le_iff_toNat_le, h.count]

theorem Holds.increment (h : s.Holds r) : s.rowIndexIncrement.Holds r := ⟨h.result, h.count⟩

/-- The cursor counts up to the number of rows and cannot wrap around on its way. -/
theorem rowIndex_increment (hlt : s.m_nRowIndex.toNat < r.rows.length) :
    s.rowIndexIncrement.m_nRowIndex.toNat = s.m_nRowIndex.toNat + 1 := by
  have hcount := r.count_lt
  simp only [rowIndexIncrement, UInt32.toNat_add, UInt32.toNat_one]
  omega

theorem Holds.getValue_eq (h : s.Holds r) (hlt : s.m_nRowIndex.toNat < r.rows.length) {j : Nat}
    (hj : j < r.nfields) : s.getValue j = (r.rows[s.m_nRowIndex.toNat][j]?).map some := by
  have hcount := r.count_lt
  have hcols : ¬(j : Int) ≥ s.getCols := by
    simp only [getCols, PQnfields, h.result, Option.map_some, Option.getD_some]
    omega
  rw [getValue, if_neg (by rw [h.fetchRow_iff]; exact not_not_intro hlt), if_neg hcols, PQgetvalue,
    h.result, cInt_of_lt (by omega)]
  simp [hlt]

theorem mapM_range_eq {α : Type*} {f : Nat → Option α} {l : List α}
    (h : ∀ j (hj : j < l.length), f j = some l[j]) : (List.range l.length).mapM f = some l := by
  induction l generalizing f with
  | nil => rfl
  | cons a l ih =>
    have htail : (List.range l.length).mapM (f ∘ Nat.succ) = some l :=
      ih fun j hj => h (j + 1) (Nat.succ_lt_succ hj)
    rw [List.length_cons, List.range_succ_eq_map, List.mapM_cons, List.mapM_map, htail,
      h 0 (Nat.zero_lt_succ _)]
    rfl

theorem Holds.readColumns_eq (h : s.Holds r) (hlt : s.m_nRowIndex.toNat < r.rows.length) :
    s.readColumns = some r.rows[s.m_nRowIndex.toNat] := by
  have hwidth := r.width _ (List.getElem_mem hlt)
  have hcols : s.getCols = r.rows[s.m_nRowIndex.toNat].length := by
    rw [hwidth, getCols, PQnfields, h.result]
    rfl
  rw [readColumns, hcols]
  refine mapM_range_eq fun j hj => ?_
  rw [h.getValue_eq hlt (by omega), List.getElem?_eq_getElem hj]
  rfl

theorem Holds.fetchLoop_eq (h : s.Holds r) (n : Nat) :
    ∃ t, fetchLoop n s = some (t, (r.rows.zipIdx.drop s.m_nRowIndex.toNat).take n) ∧ t.Holds r ∧
      t.m_nRowIndex.toNat =
        s.m_nRowIndex.toNat + min n (r.rows.length - s.m_nRowIndex.toNat) := by
  induction n generalizing s with
  | zero => exact ⟨s, rfl, h, by simp⟩
  | succ n ih =>
    by_cases hlt : s.m_nRowIndex.toNat < r.rows.length
    · obtain ⟨t, ht, hr, hidx⟩ := ih h.increment
      rw [rowIndex_increment hlt] at ht hidx
      refine ⟨t, ?_, hr, by omega⟩
      have hdrop : r.rows.zipIdx.drop s.m_nRowIndex.toNat =
          (r.rows[s.m_nRowIndex.toNat], s.m_nRowIndex.toNat) ::
            r.rows.zipIdx.drop (s.m_nRowIndex.toNat + 1) := by
        rw [List.drop_eq_getElem_cons (by simpa using hlt)]
        simp
      rw [fetchLoop, if_pos (h.fetchRow_iff.mpr hlt), h.readColumns_eq hlt, ht, hdrop,
        List.take_succ_cons]
      rfl
    · have hend : r.rows.zipIdx.drop s.m_nRowIndex.toNat = [] :=
        List.drop_eq_nil_iff.mpr (by simpa using hlt)
      refine ⟨s, ?_, h, by omega⟩
      rw [fetchLoop, if_neg (by rwa [h.fetchRow_iff]), hend, List.take_nil]

end CPGResult

/-- One query into the object, by a client in any state: what is asked, what the server answers,
and after how many rows the caller leaves the loop if it does not read to the end. -/
structure Query where
  client : CPGClient
  command : Option Bytes
  pgRes : Option PGresult
  error : Bytes
  stop : Option Nat

namespace Query

/-- The command can be sent and is answered. -/
def Stores (q : Query) : Prop :=
  q.client.m_pPGConn = true ∧ q.command.isSome ∧
    (PQresultStatus q.pgRes = .PGRES_TUPLES_OK ∨ PQresultStatus q.pgRes = .PGRES_COMMAND_OK)

instance (q : Query) : Decidable q.Stores := by unfold Stores; infer_instance

def rows (q : Query) : List (List Bytes) := (q.pgRes.map PGresult.rows).getD []

/-- The loop after the query; one that is not left has a round for every row. -/
def loop (q : Query) (s : CPGResult) : Option (CPGResult × List (List Bytes × Nat)) :=
  s.fetchLoop (q.stop.getD s.m_nRowCount.toNat)

/-- The query and, if it stored a result, the loop over it. -/
def run (q : Query) (s : CPGResult) : Option (CPGResult × List (List Bytes × Nat)) :=
  match q.client.exec q.command s q.pgRes q.error with
  | (_, s, true) => q.loop s
  | (_, s, false) => some (s, [])

/-- The query has the caller step over a row. -/
def Steps (q : Query) : Prop := q.Stores ∧ q.rows ≠ [] ∧ q.stop ≠ some 0

variable {q : Query} {s : CPGResult}

theorem exec_of_stores (hq : q.Stores) (s : CPGResult) : ∃ r, q.rows = r.rows ∧
    q.client.exec q.command s q.pgRes q.error = (q.client, s.storeResult (some r), true) := by
  obtain ⟨hconn, hcommand, hstatus⟩ := hq
  cases hres : q.pgRes with
  | none => simp [hres, PQresultStatus] at hstatus
  | some r =>
    have hgood : ¬(PQresultStatus (some r) ≠ .PGRES_TUPLES_OK ∧
        PQresultStatus (some r) ≠ .PGRES_COMMAND_OK) := by
      rw [← hres]
      exact fun hne => hstatus.elim hne.1 hne.2
    refine ⟨r, by rw [rows, hres]; rfl, ?_⟩
    have hsome : ¬q.command.isNone := by simpa [Option.isSome_iff_ne_none] using hcommand
    rw [CPGClient.exec, if_neg (not_not_intro hconn), if_neg hsome, if_neg hgood]

theorem run_of_not_stores (hq : ¬q.Stores) (s : CPGResult) : q.run s = some (s, []) := by
  have hexec : ∃ c, q.client.exec q.command s q.pgRes q.error = (c, s, false) := by
    rw [CPGClient.exec]
    split
    · exact ⟨_, rfl⟩
    · split
      · exact ⟨_, rfl⟩
      · split
        · exact ⟨_, rfl⟩
        · rename_i hconn hcommand hstatus
          have hsome : q.command.isSome := by simpa [Option.isSome_iff_ne_none] using hcommand
          exact absurd ⟨not_not.mp hconn, hsome, by tauto⟩ hq
  obtain ⟨c, hc⟩ := hexec
  rw [run, hc]

/-- What the loop after a stored query reads, and where it leaves the cursor. -/
theorem run_of_stores (hq : q.Stores) (s : CPGResult) :
    ∃ t, q.run s = some (t, (q.rows.zipIdx.drop s.m_nRowIndex.toNat).take
        (q.stop.getD q.rows.length)) ∧
      (t.fetchRow = true ↔ t.m_nRowIndex.toNat < q.rows.length) ∧
      t.m_nRowIndex.toNat = s.m_nRowIndex.toNat +
        min (q.stop.getD q.rows.length) (q.rows.length - s.m_nRowIndex.toNat) := by
  obtain ⟨r, hrows, hexec⟩ := exec_of_stores hq s
  have hholds := s.holds_storeResult r
  obtain ⟨t, ht, hr, hidx⟩ := hholds.fetchLoop_eq (q.stop.getD q.rows.length)
  rw [hrows] at ht hidx ⊢
  refine ⟨t, ?_, hr.fetchRow_iff, hidx⟩
  simp only [run, hexec, loop, hholds.count]
  exact ht

/-- The loop of a query that is not left: all rows of its answer, each once and in order, and no
row after them. -/
def VisitsAll (q : Query) (s : CPGResult) : Prop :=
  ∃ t, q.run s = some (t, q.rows.zipIdx) ∧ t.fetchRow = false

theorem visitsAll_iff (hq : q.Stores) (hwhole : q.stop = none) :
    q.VisitsAll s ↔ q.rows = [] ∨ s.m_nRowIndex.toNat = 0 := by
  obtain ⟨t, ht, hfetch, hidx⟩ := run_of_stores hq s
  rw [hwhole, Option.getD_none] at ht hidx
  have hend : t.fetchRow = false := by
    rw [Bool.eq_false_iff, Ne, hfetch]
    omega
  have htake : (q.rows.zipIdx.drop s.m_nRowIndex.toNat).take q.rows.length =
      q.rows.zipIdx.drop s.m_nRowIndex.toNat := List.take_of_length_le (by simp)
  rw [htake] at ht
  constructor
  · intro hcase
    obtain ⟨u, hu, -⟩ := hcase
    rw [ht] at hu
    have hlen := congrArg List.length (Prod.mk.inj (Option.some.inj hu)).2
    rw [List.length_drop, List.length_zipIdx] at hlen
    rw [← List.length_eq_zero_iff]
    omega
  · intro h
    refine ⟨t, ?_, hend⟩
    cases h with
    | inl hnil => simpa [hnil] using ht
    | inr hzero => rwa [hzero, List.drop_zero] at ht

end Query

def CPGResult.runAll (s : CPGResult) (queries : List Query) : Option CPGResult :=
  queries.foldlM (fun s q => (q.run s).map Prod.fst) s

/-- The cursor is at the first row as long as no loop has stepped over a row. -/
theorem CPGResult.runAll_rowIndex (s : CPGResult) (queries : List Query) :
    ∃ t, s.runAll queries = some t ∧
      (t.m_nRowIndex.toNat = 0 ↔ s.m_nRowIndex.toNat = 0 ∧ ∀ q ∈ queries, ¬q.Steps) := by
  induction queries generalizing s with
  | nil => exact ⟨s, rfl, by simp⟩
  | cons q queries ih =>
    have hstep : ∃ u rows, q.run s = some (u, rows) ∧
        (u.m_nRowIndex.toNat = 0 ↔ s.m_nRowIndex.toNat = 0 ∧ ¬q.Steps) := by
      by_cases hq : q.Stores
      · obtain ⟨u, hu, -, hidx⟩ := Query.run_of_stores hq s
        refine ⟨u, _, hu, ?_⟩
        have hlen : q.rows = [] ↔ q.rows.length = 0 := List.length_eq_zero_iff.symm
        simp only [Query.Steps, hq, hlen, true_and, ne_eq]
        cases hstop : q.stop with
        | none =>
          rw [hstop, Option.getD_none] at hidx
          simp only [reduceCtorEq, not_false_eq_true, and_true]
          omega
        | some n =>
          rw [hstop, Option.getD_some] at hidx
          simp only [Option.some.injEq]
          omega
      · exact ⟨s, [], Query.run_of_not_stores hq s, by simp [Query.Steps, hq]⟩
    obtain ⟨u, rows, hu, hidx⟩ := hstep
    obtain ⟨t, ht, hiff⟩ := ih u
    refine ⟨t, ?_, ?_⟩
    · rw [runAll, List.foldlM_cons, hu]
      exact ht
    · rw [hiff, hidx, List.forall_mem_cons, and_assoc]

/-- Every loop that is not left visits all rows of the result stored before it. -/
def VisitsEveryRow (queries : List Query) : Prop :=
  ∀ before q after, queries = before ++ q :: after → q.Stores → q.stop = none →
    ∃ s, CPGResult.new.runAll before = some s ∧ q.VisitsAll s

/-- A result with rows is read to the end only while no earlier loop has stepped over a row. -/
def CursorUnused (queries : List Query) : Prop :=
  ∀ before q after, queries = before ++ q :: after → q.Stores → q.stop = none →
    q.rows = [] ∨ ∀ p ∈ before, ¬p.Steps

/-- The cursor is not set back by a new result, so an object serves one iteration. -/
theorem visitsEveryRow_iff (queries : List Query) :
    VisitsEveryRow queries ↔ CursorUnused queries := by
  refine forall₄_congr fun before q after hsplit => forall₂_congr fun hq hwhole => ?_
  obtain ⟨s, hs, hiff⟩ := CPGResult.new.runAll_rowIndex before
  have hzero : s.m_nRowIndex.toNat = 0 ↔ ∀ p ∈ before, ¬p.Steps := by
    rw [hiff]
    exact and_iff_right rfl
  rw [← hzero, ← Query.visitsAll_iff hq hwhole, hs]
  simp

def oneRow : Query where
  client := { CPGClient.new with m_pPGConn := true }
  command := some (bytes "select 1")
  pgRes := some ⟨.PGRES_TUPLES_OK, 1, [[bytes "1"]], by decide, by decide⟩
  error := []
  stop := none

/-- The second of two queries into the object is not read at all. -/
theorem second_result_skipped :
    ¬VisitsEveryRow [oneRow, oneRow] ∧
      ((oneRow.run CPGResult.new).bind fun r => oneRow.run r.1).map Prod.snd = some [] := by
  refine ⟨?_, by decide +kernel⟩
  intro h
  obtain ⟨s, hs, hvisits⟩ := h [oneRow] oneRow [] rfl (by decide) rfl
  obtain ⟨t, ht, hiff⟩ := CPGResult.new.runAll_rowIndex [oneRow]
  obtain rfl : s = t := Option.some.inj (hs.symm.trans ht)
  cases (Query.visitsAll_iff (by decide) rfl).mp hvisits with
  | inl hnil => exact absurd hnil (by decide)
  | inr hzero =>
    exact (hiff.mp hzero).2 oneRow (List.mem_singleton_self _) ⟨by decide, by decide, by decide⟩

end CppPrivate.Pg
