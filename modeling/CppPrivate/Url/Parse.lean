import CppPrivate.Lib.Pieces
import CppPrivate.Url.Escape
import Mathlib.Data.List.TakeWhile

/-! The parser of `CUrl`. Its scanner looks for each delimiter from where the last search left it,
and returns as soon as one of the last three is missing. -/
namespace CppPrivate.Url

/-- An offset into the text with a length, each an `unsigned short`. -/
structure Span where
  off : UInt16
  len : UInt16

/-- The difference of pointers, converted. -/
def span (off len : Nat) : Span := ⟨UInt16.ofNat off, UInt16.ofNat len⟩

structure url_t where
  URL_SCHEME : Span
  URL_USERNAME : Span
  URL_PASSWORD : Span
  URL_HOST : Span
  URL_PORT : Span
  URL_PATH : Span
  URL_QUERY : Span
  URL_FRAGMENT : Span
  port : UInt16

namespace url_t

/-- After `memset`. -/
def zero : url_t :=
  let f : Span := ⟨0, 0⟩
  ⟨f, f, f, f, f, f, f, f, 0⟩

end url_t

/-- The searches answer with the place of what they find, which is not before `sp`. -/
def strchr (s : Bytes) (sp : Nat) (c : UInt8) : Option Nat :=
  ((s.drop sp).findIdx? (· == c)).map (sp + ·)

def strnchr (s : Bytes) (sp : Nat) (c : UInt8) (n : Nat) : Option Nat :=
  (((s.drop sp).take n).findIdx? (· == c)).map (sp + ·)

def strstr (pat : Bytes) : Bytes → Option Nat
  | [] => if pat = [] then some 0 else none
  | c :: s => if pat.isPrefixOf (c :: s) then some 0 else (strstr pat s).map (· + 1)

/-- `stURL->port * 10 + (port[i] - '0')` -/
def nextPort (port : UInt16) (c : UInt8) : UInt16 := port * 10 + (c.toInt8.toInt16.toUInt16 - 48)

/-- `scheme://`, and where the scanner goes on. -/
def parse_scheme (s : Bytes) (stURL : url_t) : url_t × Nat :=
  match strstr (bytes "://") s with
  | some ep => ({ stURL with URL_SCHEME := span 0 ep }, ep + 3)
  | none => (stURL, 0)

/-- `user:pswd@`, and where the host starts. -/
def parse_user (s : Bytes) (stURL : url_t) (sp ep : Nat) : url_t × Nat :=
  match strnchr s sp 64 (ep - sp) with
  | some pos =>
    match strnchr s sp 58 (pos - sp) with
    | some pswd =>
      ({ stURL with
        URL_PASSWORD := span (pswd + 1) (pos - pswd - 1)
        URL_USERNAME := span sp (pswd - sp) }, pos + 1)
    | none => ({ stURL with URL_USERNAME := span sp (pos - sp) }, pos + 1)
  | none => (stURL, sp)

/-- The host, and the port or the default of the scheme. -/
def parse_host (s : Bytes) (stURL : url_t) (host ep : Nat) : url_t :=
  match strnchr s host 58 (ep - host) with
  | some port =>
    { stURL with
      URL_PORT := span (port + 1) (ep - port - 1)
      port := ((s.drop (port + 1)).take (ep - port - 1)).foldl nextPort stURL.port
      URL_HOST := span host (port - host) }
  | none =>
    { stURL with
      port := if 0 < stURL.URL_SCHEME.len ∧ (bytes "https://").isPrefixOf s then 443 else 80
      URL_HOST := span host (ep - host) }

/-- What follows the host: the path, the query and the fragment, as far as there are any. -/
def parse_path (s : Bytes) (stURL : url_t) (sp : Nat) : url_t :=
  match strchr s sp 63 with
  | none => { stURL with URL_PATH := span sp (s.length - sp) }
  | some ep =>
    let stURL := { stURL with URL_PATH := span sp (ep - sp) }
    match strchr s (ep + 1) 35 with
    | none => { stURL with URL_QUERY := span (ep + 1) (s.length - (ep + 1)) }
    | some ep' =>
      { stURL with
        URL_QUERY := span (ep + 1) (ep' - (ep + 1))
        URL_FRAGMENT := span (ep' + 1) (s.length - (ep' + 1)) }

def parse_url (s : Bytes) : Int × url_t :=
  if 65535 < s.length then (-2, .zero)
  else
    let (stURL, sp) := parse_scheme s .zero
    match strchr s sp 47 with
    | none =>
      let (stURL, host) := parse_user s stURL sp s.length
      (0, parse_host s stURL host s.length)
    | some ep =>
      let (stURL, host) := parse_user s stURL sp ep
      (0, parse_path s (parse_host s stURL host ep) ep)

structure CUrl where
  url : Bytes
  scheme : Bytes
  username : Bytes
  password : Bytes
  host : Bytes
  port : Int
  path : Bytes
  query : Bytes
  fragment : Bytes
deriving DecidableEq

/-- `url.substr(off, len)` -/
def Span.substr (f : Span) (url : Bytes) : Bytes := (url.drop f.off.toNat).take f.len.toNat

/-- What a call leaves of the object, which it resets first. -/
def parse (url : Bytes) : Bool × CUrl :=
  let (r, stURL) := parse_url (cStr url)
  if r ≠ 0 then (false, ⟨url, [], [], [], [], 0, [], [], []⟩)
  else
    (true,
      { url := url
        scheme := stURL.URL_SCHEME.substr url
        username := stURL.URL_USERNAME.substr url
        password := if 0 < stURL.URL_USERNAME.len then stURL.URL_PASSWORD.substr url else []
        host := stURL.URL_HOST.substr url
        port := stURL.port.toNat
        path := if 0 < stURL.URL_PATH.len then stURL.URL_PATH.substr url else [47]
        query := stURL.URL_QUERY.substr url
        fragment := stURL.URL_FRAGMENT.substr url })

theorem findIdx?_hit {mid rest : Bytes} {c : UInt8} (h : c ∉ mid) :
    (mid ++ c :: rest).findIdx? (· == c) = some mid.length := by
  induction mid with
  | nil => simp [List.findIdx?_cons]
  | cons d mid ih =>
    simp only [List.mem_cons, not_or] at h
    have hne : (d == c) = false := beq_eq_false_iff_ne.mpr (Ne.symm h.1)
    rw [List.cons_append, List.findIdx?_cons, hne, ih h.2]
    rfl

theorem findIdx?_miss {s : Bytes} {c : UInt8} (h : c ∉ s) : s.findIdx? (· == c) = none := by
  rw [List.findIdx?_eq_none_iff]
  intro d hd
  exact beq_eq_false_iff_ne.mpr fun he => h (he ▸ hd)

variable {pre mid rest s : Bytes} {c : UInt8}

theorem strchr_hit {sp : Nat} (hs : s = pre ++ (mid ++ c :: rest)) (hsp : sp = pre.length)
    (h : c ∉ mid) : strchr s sp c = some (sp + mid.length) := by
  rw [strchr, hs, hsp, List.drop_left, findIdx?_hit h]
  rfl

theorem strchr_miss {sp : Nat} (hs : s = pre ++ mid) (hsp : sp = pre.length) (h : c ∉ mid) :
    strchr s sp c = none := by
  rw [strchr, hs, hsp, List.drop_left, findIdx?_miss h]
  rfl

theorem strnchr_hit {sp n : Nat} (hs : s = pre ++ (mid ++ c :: rest)) (hsp : sp = pre.length)
    (h : c ∉ mid) (hn : mid.length < n) : strnchr s sp c n = some (sp + mid.length) := by
  have htake : (mid ++ c :: rest).take n = mid ++ c :: rest.take (n - mid.length - 1) := by
    obtain ⟨k, rfl⟩ := Nat.exists_eq_add_of_lt hn
    rw [List.take_append, List.take_of_length_le (by omega)]
    have hk : mid.length + k + 1 - mid.length = k + 1 := by omega
    rw [hk, List.take_succ_cons, Nat.add_sub_cancel]
  rw [strnchr, hs, hsp, List.drop_left, htake, findIdx?_hit h]
  rfl

theorem strnchr_miss {sp n : Nat} (hs : s = pre ++ (mid ++ rest)) (hsp : sp = pre.length)
    (h : c ∉ mid) (hn : n = mid.length) : strnchr s sp c n = none := by
  rw [strnchr, hs, hsp, hn, List.drop_left, List.take_left, findIdx?_miss h]
  rfl

theorem substr_span (pre mid rest : Bytes) {off len : Nat} (hs : s = pre ++ (mid ++ rest))
    (hoff : off = pre.length) (hmid : len = mid.length) (hlen : s.length ≤ 65535) :
    (span off len).substr s = mid := by
  have hsum : s.length = pre.length + (mid.length + rest.length) := by
    rw [hs, List.length_append, List.length_append]
  have hpre : (span off len).off.toNat = pre.length := by
    rw [span, UInt16.toNat_ofNat', Nat.mod_eq_of_lt (by omega), hoff]
  have hmid : (span off len).len.toNat = mid.length := by
    rw [span, UInt16.toNat_ofNat', Nat.mod_eq_of_lt (by omega), hmid]
  rw [Span.substr, hpre, hmid, hs, List.drop_left, List.take_left]

/-- No colon is followed by a slash. -/
def NoSep : Bytes → Prop
  | [] => True
  | c :: s => (c = 58 → s.head? ≠ some 47) ∧ NoSep s

theorem NoSep.append (ha : 58 ∉ pre) (hb : NoSep s) : NoSep (pre ++ s) := by
  induction pre with
  | nil => exact hb
  | cons c pre ih =>
    simp only [List.mem_cons, not_or] at ha
    exact ⟨fun he => absurd he.symm ha.1, ih ha.2⟩

theorem strstr_miss (h : NoSep s) : strstr (bytes "://") s = none := by
  have hsep : bytes "://" = [58, 47, 47] := by decide
  rw [hsep]
  induction s with
  | nil => rfl
  | cons c s ih =>
    obtain ⟨hc, hs⟩ := h
    rw [strstr, ih hs, if_neg]
    · rfl
    · intro hpre
      cases s with
      | nil => simp at hpre
      | cons d s =>
        simp only [List.isPrefixOf_cons_cons, Bool.and_eq_true, beq_iff_eq] at hpre
        exact hc hpre.1.symm (by rw [List.head?_cons, ← hpre.2.1])

theorem strstr_hit (h : 58 ∉ mid) : strstr (bytes "://") (mid ++ (bytes "://" ++ rest)) =
    some mid.length := by
  have hsep : bytes "://" = [58, 47, 47] := by decide
  rw [hsep]
  induction mid with
  | nil => simp [strstr]
  | cons c mid ih =>
    simp only [List.mem_cons, not_or] at h
    rw [List.cons_append, strstr, ih h.2, if_neg]
    · rfl
    · intro hpre
      simp only [List.isPrefixOf_cons_cons, Bool.and_eq_true, beq_iff_eq] at hpre
      exact h.1 hpre.1

theorem span_len_pos {off len : Nat} (h : 0 < len) (hle : len ≤ 65535) : 0 < (span off len).len := by
  rw [UInt16.lt_iff_toNat_lt, span, UInt16.toNat_ofNat', Nat.mod_eq_of_lt (by omega)]
  exact h

theorem substr_zero (s : Bytes) : Span.substr ⟨0, 0⟩ s = [] := List.take_zero

/-- What each stage leaves alone. -/
theorem parse_user_frame (s : Bytes) (u : url_t) (sp ep : Nat) :
    (parse_user s u sp ep).1.URL_SCHEME = u.URL_SCHEME ∧
    (parse_user s u sp ep).1.URL_PATH = u.URL_PATH ∧
    (parse_user s u sp ep).1.URL_QUERY = u.URL_QUERY ∧
    (parse_user s u sp ep).1.URL_FRAGMENT = u.URL_FRAGMENT ∧
    (parse_user s u sp ep).1.port = u.port := by
  rw [parse_user]
  split
  · split
    · exact ⟨rfl, rfl, rfl, rfl, rfl⟩
    · exact ⟨rfl, rfl, rfl, rfl, rfl⟩
  · exact ⟨rfl, rfl, rfl, rfl, rfl⟩

theorem parse_host_frame (s : Bytes) (u : url_t) (host ep : Nat) :
    (parse_host s u host ep).URL_SCHEME = u.URL_SCHEME ∧
    (parse_host s u host ep).URL_USERNAME = u.URL_USERNAME ∧
    (parse_host s u host ep).URL_PASSWORD = u.URL_PASSWORD ∧
    (parse_host s u host ep).URL_PATH = u.URL_PATH ∧
    (parse_host s u host ep).URL_QUERY = u.URL_QUERY ∧
    (parse_host s u host ep).URL_FRAGMENT = u.URL_FRAGMENT := by
  rw [parse_host]
  split
  · exact ⟨rfl, rfl, rfl, rfl, rfl, rfl⟩
  · exact ⟨rfl, rfl, rfl, rfl, rfl, rfl⟩

/-- The span ends within the text. -/
def Span.Within (n : Nat) (f : Span) : Prop := f.off.toNat + f.len.toNat ≤ n

structure url_t.Within (n : Nat) (u : url_t) : Prop where
  scheme : u.URL_SCHEME.Within n
  username : u.URL_USERNAME.Within n
  password : u.URL_PASSWORD.Within n
  host : u.URL_HOST.Within n
  path : u.URL_PATH.Within n
  query : u.URL_QUERY.Within n
  fragment : u.URL_FRAGMENT.Within n

theorem within_span {n off len : Nat} (hn : n ≤ 65535) (h : off + len ≤ n) :
    (span off len).Within n := by
  simp only [Span.Within, span, UInt16.toNat_ofNat']
  rw [Nat.mod_eq_of_lt (by omega), Nat.mod_eq_of_lt (by omega)]
  exact h

theorem strchr_lt {sp i : Nat} (h : strchr s sp c = some i) : sp ≤ i ∧ i < s.length := by
  obtain ⟨k, hk, rfl⟩ := Option.map_eq_some_iff.mp h
  have hlt := (List.findIdx?_eq_some_iff_findIdx_eq.mp hk).1
  rw [List.length_drop] at hlt
  omega

theorem strnchr_lt {sp n i : Nat} (h : strnchr s sp c n = some i) :
    sp ≤ i ∧ i < sp + n ∧ i < s.length := by
  obtain ⟨k, hk, rfl⟩ := Option.map_eq_some_iff.mp h
  have hlt := (List.findIdx?_eq_some_iff_findIdx_eq.mp hk).1
  rw [List.length_take, List.length_drop] at hlt
  omega

theorem strstr_eq (pat s : Bytes) : strstr pat s = Pattern.find pat s := by
  induction s with
  | nil => rfl
  | cons c s ih => rw [strstr, Pattern.find, ih]

theorem strstr_le {pat : Bytes} {i : Nat} (h : strstr pat s = some i) : i + pat.length ≤ s.length := by
  rw [strstr_eq] at h
  exact Pattern.find_le h

namespace url_t.Within
variable {n : Nat} {u : url_t}

theorem zero (n : Nat) : url_t.zero.Within n :=
  ⟨Nat.zero_le n, Nat.zero_le n, Nat.zero_le n, Nat.zero_le n, Nat.zero_le n, Nat.zero_le n,
    Nat.zero_le n⟩

theorem parse_scheme (hn : s.length ≤ 65535) :
    (parse_scheme s .zero).1.Within s.length ∧ (parse_scheme s .zero).2 ≤ s.length := by
  rw [Url.parse_scheme]
  split
  · rename_i ep hep
    have hle : ep + 3 ≤ s.length := strstr_le hep
    exact ⟨{ zero s.length with scheme := within_span hn (by omega) }, hle⟩
  · exact ⟨zero s.length, Nat.zero_le _⟩

theorem parse_user (h : u.Within s.length) (hn : s.length ≤ 65535) {sp ep : Nat} (hsp : sp ≤ ep)
    (hep : ep ≤ s.length) :
    (parse_user s u sp ep).1.Within s.length ∧ (parse_user s u sp ep).2 ≤ ep := by
  rw [Url.parse_user]
  split
  · rename_i pos hpos
    obtain ⟨h1, h2, -⟩ := strnchr_lt hpos
    split
    · rename_i pswd hpswd
      obtain ⟨h3, h4, -⟩ := strnchr_lt hpswd
      have hname := within_span hn (show sp + (pswd - sp) ≤ s.length by omega)
      have hword := within_span hn (show pswd + 1 + (pos - pswd - 1) ≤ s.length by omega)
      exact ⟨{ h with username := hname, password := hword }, by simp only; omega⟩
    · have hname := within_span hn (show sp + (pos - sp) ≤ s.length by omega)
      exact ⟨{ h with username := hname }, by simp only; omega⟩
  · exact ⟨h, hsp⟩

theorem parse_host (h : u.Within s.length) (hn : s.length ≤ 65535) {host ep : Nat}
    (hhost : host ≤ ep) (hep : ep ≤ s.length) : (parse_host s u host ep).Within s.length := by
  rw [Url.parse_host]
  split
  · rename_i port hport
    obtain ⟨h1, h2, -⟩ := strnchr_lt hport
    exact { h with host := within_span hn (by omega) }
  · exact { h with host := within_span hn (by omega) }

theorem parse_path (h : u.Within s.length) (hn : s.length ≤ 65535) {sp : Nat}
    (hsp : sp ≤ s.length) : (parse_path s u sp).Within s.length := by
  rw [Url.parse_path]
  split
  · exact { h with path := within_span hn (by omega) }
  · rename_i ep hep
    obtain ⟨h1, h2⟩ := strchr_lt hep
    have hpath := within_span hn (show sp + (ep - sp) ≤ s.length by omega)
    split
    · exact { h with path := hpath, query := within_span hn (by omega) }
    · rename_i ep' hep'
      obtain ⟨h3, h4⟩ := strchr_lt hep'
      have hquery := within_span hn (show ep + 1 + (ep' - (ep + 1)) ≤ s.length by omega)
      exact { h with path := hpath, query := hquery, fragment := within_span hn (by omega) }

/-- No component reaches beyond the text. -/
theorem parse_url (s : Bytes) : (parse_url s).2.Within s.length := by
  rw [Url.parse_url]
  split
  · exact zero s.length
  · rename_i hshort
    have hn := Nat.le_of_not_lt hshort
    obtain ⟨hscheme, hsp⟩ := parse_scheme hn
    simp only
    split
    · obtain ⟨huser, hhost⟩ := hscheme.parse_user hn hsp (Nat.le_refl s.length)
      exact huser.parse_host hn hhost (Nat.le_refl _)
    · rename_i ep hep
      obtain ⟨h1, h2⟩ := strchr_lt hep
      obtain ⟨huser, hhost⟩ := hscheme.parse_user hn h1 (Nat.le_of_lt h2)
      exact (huser.parse_host hn hhost (Nat.le_of_lt h2)).parse_path hn (Nat.le_of_lt h2)

end url_t.Within

/-- So none has a zero byte. -/
theorem Span.Within.zero_not_mem {f : Span} {url : Bytes} (h : f.Within (cStr url).length) :
    0 ∉ f.substr url := by
  intro hm
  rw [Span.Within] at h
  have htake : (url.drop f.off.toNat).take f.len.toNat =
      (url.take (f.off.toNat + f.len.toNat)).drop f.off.toNat := by
    rw [List.drop_take, Nat.add_sub_cancel_left]
  rw [Span.substr, htake] at hm
  have hm := List.mem_of_mem_drop hm
  have hpre : url.take (cStr url).length = cStr url :=
    (List.prefix_iff_eq_take.mp (List.takeWhile_prefix _)).symm
  have hm : 0 ∈ url.take (cStr url).length := (List.take_subset_take_left url h) hm
  rw [hpre] at hm
  have himp := List.mem_takeWhile_imp hm
  simp at himp

end CppPrivate.Url
