import CppPrivate.Lib.Cut
import CppPrivate.Url.Parse

/-! What the parser of `CUrl` stores. Its loops end, the numbers in its record are the differences
of the pointers and none of its calls of `substr` throws, although the numbers and the counter of
the port loop have 16 bits only. -/
namespace CppPrivate.Url

/-- The loop of the port. Nothing is the result where it reads behind the text or is still running
when the fuel is used up. -/
def portLoop (s : Bytes) (port : Nat) (len : UInt16) : Nat → UInt16 → UInt16 → Option UInt16
  | 0, _, _ => none
  | fuel + 1, i, n =>
    if i ≤ len then
      s[port + i.toNat]?.bind fun c => portLoop s port len fuel (i + 1) (nextPort n c)
    else some n

def parse_host? (fuel : Nat) (s : Bytes) (stURL : url_t) (host ep : Nat) : Option url_t :=
  match strnchr s host 58 (ep - host) with
  | some port =>
    let text := span (port + 1) (ep - port - 1)
    (portLoop s port text.len fuel 1 stURL.port).map fun n =>
      { stURL with URL_PORT := text, port := n, URL_HOST := span host (port - host) }
  | none =>
    some { stURL with
      port := if 0 < stURL.URL_SCHEME.len ∧ (bytes "https://").isPrefixOf s then 443 else 80
      URL_HOST := span host (ep - host) }

def parse_url? (fuel : Nat) (s : Bytes) : Option (Int × url_t) :=
  if 65535 < s.length then some (-2, .zero)
  else
    let (stURL, sp) := parse_scheme s .zero
    match strchr s sp 47 with
    | none =>
      let (stURL, host) := parse_user s stURL sp s.length
      (parse_host? fuel s stURL host s.length).map fun stURL => (0, stURL)
    | some ep =>
      let (stURL, host) := parse_user s stURL sp ep
      (parse_host? fuel s stURL host ep).map fun stURL => (0, parse_path s stURL ep)

/-- A component, which stays as it is where nothing was found. The call of `substr` throws on an
offset behind the end. -/
def component (f : Span) (url kept : Bytes) : Option Bytes :=
  if 0 < f.len then substr? url f.off.toNat f.len.toNat else some kept

def parse? (fuel : Nat) (url : Bytes) : Option (Bool × CUrl) := do
  let (r, stURL) ← parse_url? fuel (cStr url)
  if r ≠ 0 then return (false, ⟨url, [], [], [], [], 0, [], [], []⟩)
  else
    let scheme ← component stURL.URL_SCHEME url []
    let username ← component stURL.URL_USERNAME url []
    let password ← if 0 < stURL.URL_USERNAME.len then component stURL.URL_PASSWORD url []
      else some []
    let host ← component stURL.URL_HOST url []
    let path ← component stURL.URL_PATH url [47]
    let query ← component stURL.URL_QUERY url []
    let fragment ← component stURL.URL_FRAGMENT url []
    return (true, ⟨url, scheme, username, password, host, stURL.port.toNat, path, query, fragment⟩)

/-- An offset with a length, of any size. -/
structure Extent where
  off : Nat
  len : Nat

structure Extents where
  scheme : Extent
  username : Extent
  password : Extent
  host : Extent
  port : Extent
  path : Extent
  query : Extent
  fragment : Extent

namespace Extents

def zero : Extents :=
  let x : Extent := ⟨0, 0⟩
  ⟨x, x, x, x, x, x, x, x⟩

end Extents

/-- The scanner once more, with each difference of pointers as it is. -/
def exact_scheme (s : Bytes) (e : Extents) : Extents × Nat :=
  match strstr (bytes "://") s with
  | some ep => ({ e with scheme := ⟨0, ep⟩ }, ep + 3)
  | none => (e, 0)

def exact_user (s : Bytes) (e : Extents) (sp ep : Nat) : Extents × Nat :=
  match strnchr s sp 64 (ep - sp) with
  | some pos =>
    match strnchr s sp 58 (pos - sp) with
    | some pswd =>
      ({ e with password := ⟨pswd + 1, pos - pswd - 1⟩, username := ⟨sp, pswd - sp⟩ }, pos + 1)
    | none => ({ e with username := ⟨sp, pos - sp⟩ }, pos + 1)
  | none => (e, sp)

def exact_host (s : Bytes) (e : Extents) (host ep : Nat) : Extents :=
  match strnchr s host 58 (ep - host) with
  | some port => { e with port := ⟨port + 1, ep - port - 1⟩, host := ⟨host, port - host⟩ }
  | none => { e with host := ⟨host, ep - host⟩ }

def exact_path (s : Bytes) (e : Extents) (sp : Nat) : Extents :=
  match strchr s sp 63 with
  | none => { e with path := ⟨sp, s.length - sp⟩ }
  | some ep =>
    let e := { e with path := ⟨sp, ep - sp⟩ }
    match strchr s (ep + 1) 35 with
    | none => { e with query := ⟨ep + 1, s.length - (ep + 1)⟩ }
    | some ep' =>
      { e with
        query := ⟨ep + 1, ep' - (ep + 1)⟩
        fragment := ⟨ep' + 1, s.length - (ep' + 1)⟩ }

def exact_url (s : Bytes) : Extents :=
  let (e, sp) := exact_scheme s .zero
  match strchr s sp 47 with
  | none =>
    let (e, host) := exact_user s e sp s.length
    exact_host s e host s.length
  | some ep =>
    let (e, host) := exact_user s e sp ep
    exact_path s (exact_host s e host ep) ep

/-- The span has these numbers, and ends within the text. -/
structure Span.Is (n : Nat) (f : Span) (x : Extent) : Prop where
  off : f.off.toNat = x.off
  len : f.len.toNat = x.len
  within : x.off + x.len ≤ n

structure url_t.Is (n : Nat) (u : url_t) (e : Extents) : Prop where
  scheme : u.URL_SCHEME.Is n e.scheme
  username : u.URL_USERNAME.Is n e.username
  password : u.URL_PASSWORD.Is n e.password
  host : u.URL_HOST.Is n e.host
  port : u.URL_PORT.Is n e.port
  path : u.URL_PATH.Is n e.path
  query : u.URL_QUERY.Is n e.query
  fragment : u.URL_FRAGMENT.Is n e.fragment

variable {s url : Bytes} {n fuel : Nat} {u : url_t} {e : Extents}

theorem is_span {off len : Nat} (hn : n ≤ 65535) (h : off + len ≤ n) :
    (span off len).Is n ⟨off, len⟩ := by
  refine ⟨?_, ?_, h⟩
  · rw [span, UInt16.toNat_ofNat', Nat.mod_eq_of_lt (by omega)]
  · rw [span, UInt16.toNat_ofNat', Nat.mod_eq_of_lt (by omega)]

namespace url_t.Is

theorem zero (n : Nat) : url_t.zero.Is n .zero := by
  have h : Span.Is n ⟨0, 0⟩ ⟨0, 0⟩ := ⟨rfl, rfl, Nat.zero_le n⟩
  exact ⟨h, h, h, h, h, h, h, h⟩

theorem parse_scheme (hn : s.length ≤ 65535) :
    (parse_scheme s .zero).1.Is s.length (exact_scheme s .zero).1 ∧
      (exact_scheme s .zero).2 = (Url.parse_scheme s .zero).2 ∧
      (Url.parse_scheme s .zero).2 ≤ s.length := by
  rw [Url.parse_scheme, exact_scheme]
  cases hep : strstr (bytes "://") s with
  | none => exact ⟨zero s.length, rfl, Nat.zero_le _⟩
  | some ep =>
    have hle : ep + 3 ≤ s.length := strstr_le hep
    exact ⟨{ zero s.length with scheme := is_span hn (by omega) }, rfl, hle⟩

theorem parse_user (h : u.Is s.length e) (hn : s.length ≤ 65535) {sp ep : Nat} (hsp : sp ≤ ep)
    (hep : ep ≤ s.length) :
    (parse_user s u sp ep).1.Is s.length (exact_user s e sp ep).1 ∧
      (exact_user s e sp ep).2 = (Url.parse_user s u sp ep).2 ∧
      (Url.parse_user s u sp ep).2 ≤ ep := by
  rw [Url.parse_user, exact_user]
  cases hpos : strnchr s sp 64 (ep - sp) with
  | none => exact ⟨h, rfl, hsp⟩
  | some pos =>
    obtain ⟨h1, h2, -⟩ := strnchr_lt hpos
    simp only
    cases hpswd : strnchr s sp 58 (pos - sp) with
    | none =>
      have hname := is_span hn (show sp + (pos - sp) ≤ s.length by omega)
      exact ⟨{ h with username := hname }, rfl, by simp only; omega⟩
    | some pswd =>
      obtain ⟨h3, h4, -⟩ := strnchr_lt hpswd
      have hname := is_span hn (show sp + (pswd - sp) ≤ s.length by omega)
      have hword := is_span hn (show pswd + 1 + (pos - pswd - 1) ≤ s.length by omega)
      exact ⟨{ h with username := hname, password := hword }, rfl, by simp only; omega⟩

theorem parse_host (h : u.Is s.length e) (hn : s.length ≤ 65535) {host ep : Nat}
    (hhost : host ≤ ep) (hep : ep ≤ s.length) :
    (parse_host s u host ep).Is s.length (exact_host s e host ep) := by
  rw [Url.parse_host, exact_host]
  cases hport : strnchr s host 58 (ep - host) with
  | none => exact { h with host := is_span hn (by omega) }
  | some port =>
    obtain ⟨h1, h2, -⟩ := strnchr_lt hport
    have hname := is_span hn (show host + (port - host) ≤ s.length by omega)
    have htext := is_span hn (show port + 1 + (ep - port - 1) ≤ s.length by omega)
    exact { h with host := hname, port := htext }

theorem parse_path (h : u.Is s.length e) (hn : s.length ≤ 65535) {sp : Nat}
    (hsp : sp ≤ s.length) : (parse_path s u sp).Is s.length (exact_path s e sp) := by
  rw [Url.parse_path, exact_path]
  cases hep : strchr s sp 63 with
  | none => exact { h with path := is_span hn (by omega) }
  | some ep =>
    obtain ⟨h1, h2⟩ := strchr_lt hep
    have hpath := is_span hn (show sp + (ep - sp) ≤ s.length by omega)
    simp only
    cases hep' : strchr s (ep + 1) 35 with
    | none => exact { h with path := hpath, query := is_span hn (by omega) }
    | some ep' =>
      obtain ⟨h3, h4⟩ := strchr_lt hep'
      have hquery := is_span hn (show ep + 1 + (ep' - (ep + 1)) ≤ s.length by omega)
      exact { h with path := hpath, query := hquery, fragment := is_span hn (by omega) }

end url_t.Is

/-- The counter comes to the end of the text without wrapping around: the text is shorter than the
largest number of 16 bits, since a colon stands before it. -/
theorem portLoop_eq {port todo : Nat} {len i k : UInt16} (hroom : port + len.toNat < s.length)
    (hlen : len.toNat < 65535) (hi : i.toNat + todo = len.toNat + 1) (hfuel : todo < fuel) :
    portLoop s port len fuel i k =
      some (((s.drop (port + i.toNat)).take todo).foldl nextPort k) := by
  induction todo generalizing i k fuel with
  | zero =>
    obtain ⟨fuel, rfl⟩ := Nat.exists_eq_add_of_lt hfuel
    have hend : ¬ i ≤ len := by
      rw [UInt16.le_iff_toNat_le]
      omega
    rw [Nat.zero_add, portLoop, if_neg hend]
    rfl
  | succ todo ih =>
    obtain ⟨fuel, rfl⟩ := Nat.exists_eq_add_of_lt hfuel
    have hon : i ≤ len := by
      rw [UInt16.le_iff_toNat_le]
      omega
    have hnext : (i + 1).toNat = i.toNat + 1 := by
      rw [UInt16.toNat_add]
      exact Nat.mod_eq_of_lt (by simp only [UInt16.toNat_one]; omega)
    have hbound : port + i.toNat < s.length := by omega
    rw [portLoop, if_pos hon, List.getElem?_eq_getElem hbound, Option.bind_some,
      ih (by omega) (by omega), hnext, List.drop_eq_getElem_cons hbound, List.take_succ_cons]
    rfl

theorem parse_host?_eq (hn : s.length ≤ 65535) {host ep : Nat} (hhost : host ≤ ep)
    (hep : ep ≤ s.length) (hfuel : 65536 ≤ fuel) :
    parse_host? fuel s u host ep = some (parse_host s u host ep) := by
  rw [parse_host?, parse_host]
  cases hport : strnchr s host 58 (ep - host) with
  | none => rfl
  | some port =>
    obtain ⟨h1, h2, -⟩ := strnchr_lt hport
    have htext := is_span hn (show port + 1 + (ep - port - 1) ≤ s.length by omega)
    have hlen : (span (port + 1) (ep - port - 1)).len.toNat = ep - port - 1 := htext.len
    simp only
    rw [@portLoop_eq s _ port (ep - port - 1) _ _ _ (by omega) (by omega)
      (by rw [hlen, UInt16.toNat_one]; omega) (by omega)]
    rfl

/-- With fuel for the longest port the scanner ends. -/
theorem parse_url?_eq (s : Bytes) (hfuel : 65536 ≤ fuel) :
    parse_url? fuel s = some (parse_url s) := by
  rw [parse_url?, parse_url]
  split
  · rfl
  · rename_i hshort
    have hn := Nat.le_of_not_lt hshort
    obtain ⟨hscheme, -, hsp⟩ := url_t.Is.parse_scheme hn
    simp only
    cases hep : strchr s (parse_scheme s .zero).2 47 with
    | none =>
      obtain ⟨-, -, hhost⟩ := hscheme.parse_user hn hsp (Nat.le_refl s.length)
      simp only [parse_host?_eq hn hhost (Nat.le_refl _) hfuel, Option.map_some]
    | some ep =>
      obtain ⟨h1, h2⟩ := strchr_lt hep
      obtain ⟨-, -, hhost⟩ := hscheme.parse_user hn h1 (Nat.le_of_lt h2)
      simp only [parse_host?_eq hn hhost (Nat.le_of_lt h2) hfuel, Option.map_some]

/-- Up to 65535 bytes every number is stored as it is. -/
theorem parse_url_is (hn : s.length ≤ 65535) :
    (parse_url s).1 = 0 ∧ (parse_url s).2.Is s.length (exact_url s) := by
  rw [parse_url, exact_url]
  rw [if_neg (Nat.not_lt.mpr hn)]
  obtain ⟨hscheme, hplace, hsp⟩ := url_t.Is.parse_scheme hn
  simp only [hplace]
  cases hep : strchr s (parse_scheme s .zero).2 47 with
  | none =>
    obtain ⟨huser, hplace, hhost⟩ := hscheme.parse_user hn hsp (Nat.le_refl s.length)
    simp only [hplace]
    exact ⟨trivial, huser.parse_host hn hhost (Nat.le_refl _)⟩
  | some ep =>
    obtain ⟨h1, h2⟩ := strchr_lt hep
    obtain ⟨huser, hplace, hhost⟩ := hscheme.parse_user hn h1 (Nat.le_of_lt h2)
    simp only [hplace]
    exact ⟨trivial, (huser.parse_host hn hhost (Nat.le_of_lt h2)).parse_path hn (Nat.le_of_lt h2)⟩

/-- A span within the text is read without an exception. -/
theorem component_eq {f : Span} {x : Extent} (h : f.Is n x) (hn : n ≤ url.length) (kept : Bytes) :
    component f url kept = some (if 0 < f.len then f.substr url else kept) := by
  obtain ⟨hoff, -, hwithin⟩ := h
  rw [component]
  split
  · exact if_pos (by omega)
  · rfl

theorem component_nil {f : Span} {x : Extent} (h : f.Is n x) (hn : n ≤ url.length) :
    component f url [] = some (f.substr url) := by
  rw [component_eq h hn]
  split
  · rfl
  · rename_i hzero
    have hlen : f.len.toNat = 0 := by
      rw [UInt16.lt_iff_toNat_lt, UInt16.toNat_zero] at hzero
      omega
    rw [Span.substr, hlen]
    rfl

/-- From some fuel on the parser is the function `parse`, with no exception on the way. -/
theorem parse?_eq (url : Bytes) (hfuel : 65536 ≤ fuel) : parse? fuel url = some (parse url) := by
  rw [parse?, parse]
  rw [parse_url?_eq _ hfuel]
  by_cases hlong : 65535 < (cStr url).length
  · simp only [parse_url, if_pos hlong]
    rfl
  · obtain ⟨hzero, h⟩ := parse_url_is (Nat.le_of_not_lt hlong)
    have hn : (cStr url).length ≤ url.length := (List.takeWhile_prefix _).length_le
    simp only [hzero, Option.bind_eq_bind, Option.bind_some, component_nil h.scheme hn,
      component_nil h.username hn, component_nil h.password hn, component_nil h.host hn,
      component_eq h.path hn, component_nil h.query hn, component_nil h.fragment hn]
    by_cases hname : 0 < (parse_url (cStr url)).2.URL_USERNAME.len
    · simp only [if_pos hname]
      rfl
    · simp only [if_neg hname]
      rfl

/-- The parser ends on every text. If at most 65535 bytes stand before the first zero byte the
numbers of its record are exact and within the text, and all components are read; else there are no
components. -/
theorem parse_exact (url : Bytes) : ∃ n, ∀ fuel ≥ n,
    if (cStr url).length ≤ 65535 then
      ∃ stURL, parse_url? fuel (cStr url) = some (0, stURL) ∧
        stURL.Is (cStr url).length (exact_url (cStr url)) ∧
        parse? fuel url = some (true, (parse url).2)
    else parse? fuel url = some (false, ⟨url, [], [], [], [], 0, [], [], []⟩) := by
  refine ⟨65536, fun fuel hfuel => ?_⟩
  rw [parse?_eq url hfuel, parse_url?_eq _ hfuel]
  split
  · rename_i hshort
    obtain ⟨hzero, h⟩ := parse_url_is hshort
    refine ⟨_, congrArg some (Prod.ext hzero rfl), h, congrArg some (Prod.ext ?_ rfl)⟩
    simp only [parse, hzero]
    rfl
  · rename_i hlong
    simp only [parse, parse_url, if_pos (Nat.lt_of_not_le hlong)]
    rfl

end CppPrivate.Url
