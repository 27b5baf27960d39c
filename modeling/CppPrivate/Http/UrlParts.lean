import CppPrivate.Http.UrlParser
import CppPrivate.Lib.Digits

/-! The URLs that `URLParser` is to take apart. Its last stage takes all that follows the question
mark, with the fragment. -/
namespace CppPrivate.Http

def URLParser.ofUrl (url : Bytes) : URLParser := (URLParser.new 80).Parse url

structure UrlParts where
  scheme : Bytes
  host : Bytes
  port : Option Bytes
  path : Option Bytes
  query : Option Bytes
  fragment : Option Bytes

namespace UrlParts

/-- A part behind its mark, if it is present. -/
def behind (mark : Bytes) : Option Bytes → Bytes
  | some x => mark ++ x
  | none => []

/-- What follows the host and its port. -/
def tail (p : UrlParts) : Bytes :=
  behind [] p.path ++ (behind [63] p.query ++ behind [35] p.fragment)

def assemble (p : UrlParts) : Bytes :=
  p.scheme ++ URLParser.prot_end ++ (p.host ++ (behind [58] p.port ++ p.tail))

structure WellFormed (p : UrlParts) : Prop where
  scheme : ∀ c ∈ p.scheme, ¬ equal_key c
  host : ∀ c ∈ p.host, ¬ equal_key c
  digits : ∀ d ∈ p.port, d ≠ [] ∧ ∀ c ∈ d, isDigit c
  port : ∀ d ∈ p.port, readOn 0 d < 2 ^ 31
  path : ∀ x ∈ p.path, x.head? = some 47 ∧ ∀ c ∈ x, ¬ is_question_or_sharp c
  query : ∀ q ∈ p.query, 35 ∉ q

structure Splits (p : UrlParts) (u : URLParser) : Prop where
  schema : u.schema = p.scheme.map tolower
  host : u.host = p.host.map tolower
  port : u.port = match p.port with
    | some d => (readOn 0 d : Int)
    | none => 80
  path : u.path = p.path.getD []
  query : u.query = p.query.getD []

end UrlParts

/-- A text that has ended, or goes on with a byte that passes. -/
def StopsBefore (f : UInt8 → Bool) (s : Bytes) : Prop := ∀ c ∈ s.head?, f c = true

theorem find_if_stops {f : UInt8 → Bool} {s rest : Bytes} (hs : ∀ c ∈ s, ¬ f c)
    (hrest : StopsBefore f rest) : find_if f (s ++ rest) = (s, rest) := by
  have hfalse : ∀ c ∈ s, f c = false := fun c hc => Bool.eq_false_iff.mpr (hs c hc)
  cases rest with
  | nil =>
    have hall : ∀ c ∈ s, (!f c) = true := fun c hc => by rw [hfalse c hc]; rfl
    rw [find_if, List.takeWhile_append_of_pos hall, List.dropWhile_append_of_pos hall]
    exact Prod.ext (List.append_nil s) rfl
  | cons c t => exact find_if_append hfalse (hrest c rfl) t

theorem isDigit_iff {c : UInt8} : isDigit c = true ↔ 48 ≤ c.toNat ∧ c.toNat ≤ 57 := by
  simp only [isDigit, Bool.and_eq_true, decide_eq_true_eq, UInt8.le_iff_toNat_le,
    UInt8.reduceToNat]

theorem foldl_digits {ds : Bytes} (hds : ∀ c ∈ ds, isDigit c) (n : Nat) :
    ds.foldl (fun n c => 10 * n + (c.toNat - 48 : Int)) (n : Int) = (readOn n ds : Nat) := by
  induction ds generalizing n with
  | nil => rfl
  | cons c ds ih =>
    have hc := isDigit_iff.mp (hds c List.mem_cons_self)
    have hnext : 10 * (n : Int) + (c.toNat - 48 : Int) = (n * 10 + (c.toNat - 48) : Nat) := by
      omega
    rw [List.foldl_cons, hnext, ih fun c' hc' => hds c' (List.mem_cons_of_mem c hc')]
    rfl

/-- A number is read up to the text behind it. -/
theorem atoi_digits {d rest : Bytes} (hne : d ≠ []) (hd : ∀ c ∈ d, isDigit c)
    (hrest : ∀ c ∈ rest.head?, isDigit c = false) : atoi (d ++ rest) = readOn 0 d := by
  have htake : (d ++ rest).takeWhile isDigit = d := by
    rw [List.takeWhile_append_of_pos hd]
    cases rest with
    | nil => exact List.append_nil d
    | cons c t => rw [List.takeWhile_cons_of_neg (by rw [hrest c rfl]; decide), List.append_nil]
  have hdigits : digits (d ++ rest) = readOn 0 d := by
    rw [digits, htake]
    exact foldl_digits hd 0
  cases d with
  | nil => exact absurd rfl hne
  | cons c d =>
    have hc := isDigit_iff.mp (hd c List.mem_cons_self)
    have hspace : ¬ isspace c = true := by
      simp only [isspace, Bool.or_eq_true, beq_iff_eq, Bool.and_eq_true, decide_eq_true_eq,
        ← UInt8.toNat_inj, UInt8.le_iff_toNat_le, UInt8.reduceToNat]
      omega
    rw [List.cons_append] at hdigits ⊢
    rw [atoi, List.dropWhile_cons_of_neg hspace]
    split
    · rename_i heq
      obtain rfl : c = 45 := (List.cons.inj heq).1
      exact absurd hc (by decide)
    · rename_i heq
      obtain rfl : c = 43 := (List.cons.inj heq).1
      exact absurd hc (by decide)
    · exact hdigits

namespace UrlParts
variable {p : UrlParts} {u : URLParser}

/-- A part behind its mark stops a search for the mark. -/
theorem stops_behind {f : UInt8 → Bool} {m : UInt8} {x : Option Bytes} {rest : Bytes}
    (hm : f m = true) (hrest : StopsBefore f rest) : StopsBefore f (behind [m] x ++ rest) := by
  cases x with
  | none => exact hrest
  | some x =>
    intro c hc
    obtain rfl : m = c := Option.some.inj hc
    exact hm

theorem stops_query (p : UrlParts) {f : UInt8 → Bool} (hf : f 63 = true ∧ f 35 = true) :
    StopsBefore f (behind [63] p.query ++ behind [35] p.fragment) := by
  have hfragment : StopsBefore f (behind [35] p.fragment ++ []) := stops_behind hf.2 nofun
  rw [List.append_nil] at hfragment
  exact stops_behind hf.1 hfragment

/-- What follows the port starts with a slash, a question mark or a sharp. -/
theorem WellFormed.stops_tail (h : p.WellFormed) {f : UInt8 → Bool}
    (hf : f 47 = true ∧ f 63 = true ∧ f 35 = true) : StopsBefore f p.tail := by
  rw [tail]
  cases hx : p.path with
  | none => exact p.stops_query hf.2
  | some x =>
    have hhead := (h.path x hx).1
    cases x with
    | nil => cases hhead
    | cons c x =>
      intro d hd
      obtain rfl : c = d := Option.some.inj hd
      obtain rfl : c = 47 := Option.some.inj hhead
      exact hf.1

theorem WellFormed.takePort (h : p.WellFormed) (hu : u.port = 80) :
    u.takePort (behind [58] p.port ++ p.tail) =
      ({ u with port := match p.port with
        | some d => (readOn 0 d : Int)
        | none => 80 }, p.tail) := by
  have hstops : StopsBefore equal_key p.tail := h.stops_tail (by decide)
  cases hport : p.port with
  | none =>
    have htail : ∀ s, p.tail ≠ 58 :: s := by
      intro s hs
      have hcolon : StopsBefore (· ≠ 58) p.tail := h.stops_tail (by decide)
      rw [hs] at hcolon
      exact absurd (hcolon 58 rfl) (by decide)
    rw [behind, List.nil_append, URLParser.takePort.eq_2 u p.tail htail, ← hu]
  | some d =>
    obtain ⟨hne, hd⟩ := h.digits d hport
    have hkey : ∀ c ∈ d, ¬ equal_key c := by
      intro c hc
      have hlow := isDigit_iff.mp (hd c hc)
      simp only [equal_key, Bool.or_eq_true, beq_iff_eq, ← UInt8.toNat_inj, UInt8.reduceToNat]
      omega
    have hrest : ∀ c ∈ p.tail.head?, isDigit c = false := by
      intro c hc
      have hnot : StopsBefore (fun c => !isDigit c) p.tail := h.stops_tail (by decide)
      simpa using hnot c hc
    have hnil : d ++ p.tail ≠ [] := by simp [hne]
    rw [behind, List.singleton_append, List.cons_append, URLParser.takePort, if_pos hnil,
      find_if_stops hkey hstops, atoi_digits hne hd hrest]

theorem WellFormed.takePath (h : p.WellFormed) (hu : u.path = []) : u.takePath p.tail =
    ({ u with path := p.path.getD [] }, behind [63] p.query ++ behind [35] p.fragment) := by
  have hstops : StopsBefore is_question_or_sharp (behind [63] p.query ++ behind [35] p.fragment) :=
    p.stops_query (by decide)
  rw [tail]
  cases hpath : p.path with
  | none =>
    have hrest : ∀ s, behind [63] p.query ++ behind [35] p.fragment ≠ 47 :: s := by
      intro s hs
      have hslash : StopsBefore (· ≠ 47) (behind [63] p.query ++ behind [35] p.fragment) :=
        p.stops_query (by decide)
      rw [hs] at hslash
      exact absurd (hslash 47 rfl) (by decide)
    rw [behind, List.nil_append, URLParser.takePath.eq_2 u _ hrest, Option.getD_none, ← hu]
  | some x =>
    obtain ⟨hhead, hfree⟩ := h.path x hpath
    cases x with
    | nil => cases hhead
    | cons c x =>
      obtain rfl : c = 47 := Option.some.inj hhead
      rw [behind, List.nil_append, List.cons_append, URLParser.takePath, ← List.cons_append,
        find_if_stops hfree hstops]
      rfl

/-- The query is all that follows the question mark. -/
theorem takeQuery (p : UrlParts) (hu : u.query = []) :
    u.takeQuery (behind [63] p.query ++ behind [35] p.fragment) =
      { u with query := match p.query with
        | some q => q ++ behind [35] p.fragment
        | none => [] } := by
  cases p.query with
  | none =>
    cases p.fragment with
    | none => rw [behind, behind, List.append_nil, URLParser.takeQuery.eq_2 u [] nofun, ← hu]
    | some f => rw [behind, behind, List.nil_append, List.singleton_append,
        URLParser.takeQuery.eq_2 u (35 :: f) (by simp), ← hu]
  | some q =>
    rw [behind, List.singleton_append, List.cons_append, URLParser.takeQuery]
    split
    · rfl
    · rename_i hnil
      rw [ne_eq, not_not] at hnil
      simp only [hnil]
      rw [← hu]

end UrlParts

/-- The parser stops early only where there is nothing left to take. -/
theorem URLParser.parse_eq (u : URLParser) (url_s : Bytes) : u.Parse url_s =
    let (u, it) := u.takeSchema url_s
    let (u, it) := u.takeHost it
    let (u, it) := u.takePort it
    let (u, it) := u.takePath it
    u.takeQuery it := by
  simp only [Parse]
  split
  · rename_i hit
    rw [hit]
    rfl
  · rfl

namespace UrlParts
variable {p : UrlParts}

/-- What the parser makes of a URL. -/
theorem WellFormed.ofUrl (h : p.WellFormed) : URLParser.ofUrl p.assemble =
    { schema := p.scheme.map tolower
      host := p.host.map tolower
      port := match p.port with
        | some d => (readOn 0 d : Int)
        | none => 80
      path := p.path.getD []
      query := match p.query with
        | some q => q ++ behind [35] p.fragment
        | none => [] } := by
  have hscheme : 58 ∉ p.scheme := fun hm => absurd (h.scheme 58 hm) (by decide)
  have hstops : StopsBefore equal_key (behind [58] p.port ++ p.tail) :=
    stops_behind (by decide) (h.stops_tail (by decide))
  rw [URLParser.ofUrl, URLParser.parse_eq, assemble, URLParser.takeSchema_of hscheme]
  simp only [URLParser.takeHost, find_if_stops h.host hstops]
  rw [h.takePort rfl]
  simp only
  rw [h.takePath rfl]
  simp only
  rw [p.takeQuery rfl]
  rfl

/-- A URL is taken apart into its parts exactly if it has no query or no fragment. -/
theorem splits_iff (h : p.WellFormed) :
    p.Splits (.ofUrl p.assemble) ↔ p.query = none ∨ p.fragment = none := by
  rw [h.ofUrl]
  constructor
  · intro hs
    have hquery := hs.query
    cases hq : p.query with
    | none => exact Or.inl rfl
    | some q =>
      right
      rw [hq] at hquery
      cases hf : p.fragment with
      | none => rfl
      | some f =>
        rw [hf] at hquery
        exact absurd (List.append_right_eq_self.mp hquery) (List.cons_ne_nil 35 f)
  · intro hone
    refine ⟨rfl, rfl, rfl, rfl, ?_⟩
    cases hone with
    | inl hq => simp only [hq, Option.getD_none]
    | inr hf =>
      cases hq : p.query with
      | none => rfl
      | some q => simp only [hf, behind, List.append_nil, Option.getD_some]

theorem splits_localhost : (UrlParts.mk (bytes "HTTP") (bytes "localhost") (some (bytes "8080"))
    (some (bytes "/a")) (some (bytes "b=1")) none).Splits
      (.ofUrl (bytes "HTTP://localhost:8080/a?b=1")) := by
  have h : (UrlParts.mk (bytes "HTTP") (bytes "localhost") (some (bytes "8080"))
      (some (bytes "/a")) (some (bytes "b=1")) none).WellFormed := by
    refine ⟨List.any_eq_false.mp (by decide), List.any_eq_false.mp (by decide), ?_, ?_, ?_, ?_⟩
    · intro d hd
      cases hd
      exact ⟨by decide, List.all_eq_true.mp (by decide)⟩
    · intro d hd
      cases hd
      decide
    · intro x hx
      cases hx
      exact ⟨by decide, List.any_eq_false.mp (by decide)⟩
    · intro q hq
      cases hq
      decide
  exact (splits_iff h).mpr (Or.inr rfl)

/-- The fragment becomes a part of the query. -/
theorem not_splits : ¬ ∀ p : UrlParts, p.WellFormed → p.Splits (.ofUrl p.assemble) := by
  intro h
  have hwell : (UrlParts.mk (bytes "http") (bytes "h") none (some (bytes "/p")) (some (bytes "q=1"))
      (some (bytes "f"))).WellFormed := by
    refine ⟨List.any_eq_false.mp (by decide), List.any_eq_false.mp (by decide), nofun, nofun,
      ?_, ?_⟩
    · intro x hx
      cases hx
      exact ⟨by decide, List.any_eq_false.mp (by decide)⟩
    · intro q hq
      cases hq
      decide
  exact absurd (h _ hwell).query (by decide)

end UrlParts
end CppPrivate.Http
