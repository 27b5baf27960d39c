import CppPrivate.Lib.Query
import CppPrivate.Pg.Client

/-! The connection string as the server's client library reads it. The escaping spares `&` and
`=`, which separate the parameters, so credentials with either of them are read as others. -/
namespace CppPrivate.Pg
open Url Query

def sslmode (SSL : UInt32) : Bytes :=
  if SSL = PG_ENABLE_SSL then bytes "require" else bytes "disable"

/-- The parameters the connection string is meant to carry. -/
def parameters (nTimeout : UInt32) (username password : Bytes) (SSL : UInt32) :
    List (Bytes × Bytes) :=
  [(bytes "user", username), (bytes "password", password),
    (bytes "connect_timeout", decimal nTimeout.toNat), (bytes "sslmode", sslmode SSL)]

/-- The text around the escaped credentials. -/
def params (user password timeout mode : Bytes) : Bytes :=
  bytes "user" ++ 61 :: (user ++ 38 :: (bytes "password" ++ 61 :: (password ++ 38 ::
    (bytes "connect_timeout" ++ 61 :: (timeout ++ 38 :: (bytes "sslmode" ++ 61 :: mode))))))

def address (host port dbName : Bytes) : Bytes :=
  bytes "postgresql://" ++ host ++ bytes ":" ++ port ++ bytes "/" ++ dbName

theorem conninfo_eq (nTimeout : UInt32) (host port username password dbName : Bytes) (SSL : UInt32) :
    CPGClient.conninfo nTimeout host port username password dbName SSL =
      address host port dbName ++ 63 :: params (escapeUrl username) (escapeUrl password)
        (decimal nTimeout.toNat) (sslmode SSL) := by
  rw [CPGClient.conninfo, address, params, sslmode]
  simp only [List.append_assoc]
  split <;> rfl

theorem mem_address {host port dbName : Bytes} :
    63 ∈ address host port dbName ↔ 63 ∈ host ∨ 63 ∈ port ∨ 63 ∈ dbName := by
  have h1 : 63 ∉ bytes "postgresql://" := by decide
  have h2 : 63 ∉ bytes ":" := by decide
  have h3 : 63 ∉ bytes "/" := by decide
  simp only [address, List.mem_append, h1, h2, h3, false_or, or_false, or_assoc]

theorem count_params (user password timeout mode : Bytes) :
    user.count 38 + password.count 38 + 3 ≤ (params user password timeout mode).count 38 ∧
    user.count 61 + password.count 61 + 4 ≤ (params user password timeout mode).count 61 := by
  simp only [params, List.count_append, List.count_cons]
  constructor
  · have h1 : ((61 : UInt8) == 38) = false := by decide
    have h2 : ((38 : UInt8) == 38) = true := by decide
    simp only [h1, h2, if_true, Bool.false_eq_true, if_false]
    omega
  · have h1 : ((38 : UInt8) == 61) = false := by decide
    have h2 : ((61 : UInt8) == 61) = true := by decide
    simp only [h1, h2, if_true, Bool.false_eq_true, if_false]
    omega

theorem not_mem_keys {k v : Bytes} {nTimeout : UInt32} {username password : Bytes} {SSL : UInt32}
    (h : (k, v) ∈ parameters nTimeout username password SSL) : 63 ∉ k := by
  have hkeys : ∀ k ∈ [bytes "user", bytes "password", bytes "connect_timeout", bytes "sslmode"],
      63 ∉ k := by decide
  exact hkeys k (List.mem_map_of_mem (f := Prod.fst) h)

/-- A value without separators, and what it decodes to. -/
structure Value (s t : Bytes) : Prop where
  plain : 38 ∉ s ∧ 61 ∉ s
  decode : Percent.decode s = some t

theorem Value.literal {s : Bytes} (h : 38 ∉ s ∧ 61 ∉ s) (hp : 37 ∉ s) : Value s s :=
  ⟨h, Percent.decode_plain hp⟩

theorem parse_params {user password timeout mode user' password' timeout' mode' : Bytes}
    (hu : Value user user') (hp : Value password password') (ht : Value timeout timeout')
    (hm : Value mode mode') : parse (params user password timeout mode) =
      some [(bytes "user", user'), (bytes "password", password'),
        (bytes "connect_timeout", timeout'), (bytes "sslmode", mode')] := by
  have hk1 : Value (bytes "user") (bytes "user") := .literal (by decide) (by decide)
  have hk2 : Value (bytes "password") (bytes "password") := .literal (by decide) (by decide)
  have hk3 : Value (bytes "connect_timeout") (bytes "connect_timeout") :=
    .literal (by decide) (by decide)
  have hk4 : Value (bytes "sslmode") (bytes "sslmode") := .literal (by decide) (by decide)
  rw [params, parse_cons hk1.plain hu.plain hk1.decode hu.decode,
    parse_cons hk2.plain hp.plain hk2.decode hp.decode,
    parse_cons hk3.plain ht.plain hk3.decode ht.decode,
    parse_last hk4.plain hm.plain hk4.decode hm.decode]
  rfl

theorem value_escapeUrl {s : Bytes} (h0 : 0 ∉ s) (h : 38 ∉ s ∧ 61 ∉ s) : Value (escapeUrl s) s where
  plain := by
    rw [mem_escapeUrl h0 (by decide) (by decide) (by decide),
      mem_escapeUrl h0 (by decide) (by decide) (by decide)]
    exact h
  decode := decode_escapeUrl h0

theorem value_decimal (n : Int) : Value (decimal n) (decimal n) := by
  have hnot : ∀ c : UInt8, isDigit c = false → c ≠ 45 → c ∉ decimal n := by
    intro c hd hc hm
    cases mem_decimal hm with
    | inl hm =>
      rw [hd] at hm
      cases hm
    | inr hm => exact hc hm
  exact .literal ⟨hnot 38 (by decide) (by decide), hnot 61 (by decide) (by decide)⟩
    (hnot 37 (by decide) (by decide))

theorem value_sslmode (SSL : UInt32) : Value (sslmode SSL) (sslmode SSL) := by
  rw [sslmode]
  split
  · exact .literal (by decide) (by decide)
  · exact .literal (by decide) (by decide)

/-- A question mark before the parameters ends up in the first key. -/
theorem no_early_query {w user password timeout mode : Bytes} {nTimeout : UInt32}
    {username passwd : Bytes} {SSL : UInt32} {l : List (Bytes × Bytes)}
    (h : parse (w ++ 63 :: params user password timeout mode) = some l)
    (hl : l.Perm (parameters nTimeout username passwd SSL)) : False := by
  obtain ⟨h38, h61⟩ := counts_of_parse h
  obtain ⟨c38, c61⟩ := count_params user password timeout mode
  have hlen : l.length = 4 := hl.length_eq
  simp only [List.count_append, List.count_cons] at h38 h61
  have hw : 38 ∉ w ∧ 61 ∉ w := ⟨List.count_eq_zero.mp (by omega), List.count_eq_zero.mp (by omega)⟩
  have hu : 38 ∉ user ∧ 61 ∉ user :=
    ⟨List.count_eq_zero.mp (by omega), List.count_eq_zero.mp (by omega)⟩
  have hkey : 38 ∉ w ++ 63 :: bytes "user" ∧ 61 ∉ w ++ 63 :: bytes "user" := by
    have hk : 38 ∉ 63 :: bytes "user" ∧ 61 ∉ 63 :: bytes "user" := by decide
    simp only [List.mem_append, hw, hk, or_self, not_false_eq_true, and_self]
  have hsplit : w ++ 63 :: params user password timeout mode = (w ++ 63 :: bytes "user") ++ 61 ::
      (user ++ 38 :: (bytes "password" ++ 61 :: (password ++ 38 ::
        (bytes "connect_timeout" ++ 61 :: (timeout ++ 38 :: (bytes "sslmode" ++ 61 :: mode)))))) := by
    simp only [params, List.append_assoc, List.cons_append]
  rw [hsplit] at h
  obtain ⟨k, v, hk, hm⟩ := parse_first hkey hu h
  have h63 : 63 ∈ k := Percent.mem_of_decode (by decide) (by decide) (by simp) hk
  exact not_mem_keys (hl.mem_iff.mp hm) h63

/-- The credentials come through exactly if they hold no separator of the parameters and the
parameters start at the first question mark. -/
theorem conninfo_parses {nTimeout : UInt32} {host port username password dbName : Bytes}
    {SSL : UInt32} (hu : 0 ∉ username) (hp : 0 ∉ password) :
    (∃ l, parse (query (CPGClient.conninfo nTimeout host port username password dbName SSL)) =
        some l ∧ l.Perm (parameters nTimeout username password SSL)) ↔
      (63 ∉ host ∧ 63 ∉ port ∧ 63 ∉ dbName) ∧
        (38 ∉ username ∧ 61 ∉ username) ∧ 38 ∉ password ∧ 61 ∉ password := by
  rw [conninfo_eq]
  by_cases haddr : 63 ∈ address host port dbName
  · obtain ⟨w, hw⟩ := query_append_mem haddr
    rw [hw]
    constructor
    · intro hcase
      obtain ⟨l, h, hl⟩ := hcase
      exact (no_early_query h hl).elim
    · intro hcase
      obtain ⟨⟨h1, h2, h3⟩, -⟩ := hcase
      rcases mem_address.mp haddr with h | h | h
      · exact absurd h h1
      · exact absurd h h2
      · exact absurd h h3
  · rw [query_append haddr]
    have hnone : 63 ∉ host ∧ 63 ∉ port ∧ 63 ∉ dbName := by
      rw [mem_address, not_or, not_or] at haddr
      exact haddr
    constructor
    · intro hcase
      obtain ⟨l, h, hl⟩ := hcase
      obtain ⟨h38, h61⟩ := counts_of_parse h
      obtain ⟨c38, c61⟩ := count_params (escapeUrl username) (escapeUrl password)
        (decimal nTimeout.toNat) (sslmode SSL)
      have hlen : l.length = 4 := hl.length_eq
      have hplain : ∀ {s}, 0 ∉ s → (escapeUrl s).count 38 = 0 → (escapeUrl s).count 61 = 0 →
          38 ∉ s ∧ 61 ∉ s := by
        intro s h0 ha hb
        rw [List.count_eq_zero, mem_escapeUrl h0 (by decide) (by decide) (by decide)] at ha hb
        exact ⟨ha, hb⟩
      exact ⟨hnone, hplain hu (by omega) (by omega), hplain hp (by omega) (by omega)⟩
    · intro hcase
      obtain ⟨-, huser, hpass⟩ := hcase
      exact ⟨_, parse_params (value_escapeUrl hu huser) (value_escapeUrl hp hpass)
        (value_decimal _) (value_sslmode SSL), List.Perm.refl _⟩

theorem conninfo_parses_spaced : ∃ l, parse (query (CPGClient.conninfo 10 (bytes "db") (bytes "5432")
      (bytes "me?") (bytes "p w:%") (bytes "d") PG_ENABLE_SSL)) = some l ∧
    l.Perm (parameters 10 (bytes "me?") (bytes "p w:%") PG_ENABLE_SSL) :=
  (conninfo_parses (by decide) (by decide)).mpr (by decide)

/-- The password turns SSL off. -/
theorem password_adds_parameter : parse (query (CPGClient.conninfo 10 (bytes "db") (bytes "5432")
      (bytes "me") (bytes "p&sslmode=disable") (bytes "d") PG_ENABLE_SSL)) =
    some [(bytes "user", bytes "me"), (bytes "password", bytes "p"),
      (bytes "sslmode", bytes "disable"), (bytes "connect_timeout", bytes "10"),
      (bytes "sslmode", bytes "require")] ∧
    ¬ ∃ l, parse (query (CPGClient.conninfo 10 (bytes "db") (bytes "5432")
      (bytes "me") (bytes "p&sslmode=disable") (bytes "d") PG_ENABLE_SSL)) = some l ∧
    l.Perm (parameters 10 (bytes "me") (bytes "p&sslmode=disable") PG_ENABLE_SSL) := by
  have h : parse (query (CPGClient.conninfo 10 (bytes "db") (bytes "5432")
      (bytes "me") (bytes "p&sslmode=disable") (bytes "d") PG_ENABLE_SSL)) =
    some [(bytes "user", bytes "me"), (bytes "password", bytes "p"),
      (bytes "sslmode", bytes "disable"), (bytes "connect_timeout", bytes "10"),
      (bytes "sslmode", bytes "require")] := by decide +kernel
  refine ⟨h, ?_⟩
  intro hcase
  obtain ⟨l, hl, hp⟩ := hcase
  rw [h] at hl
  cases hl
  exact absurd hp.length_eq (by decide)

end CppPrivate.Pg
