import CppPrivate.Lib.Cut
import CppPrivate.Url.Assemble

/-! What the parser of `CUrl` reads, without offsets: the text is cut at the first separator, and
the parts are cut at the next ones. -/
namespace CppPrivate.Url

/-- The user with the password, and the host with the port. -/
def userinfo (a : Bytes) : Option Bytes × Bytes :=
  match cut 64 a with
  | (u, some h) => (some u, h)
  | (h, none) => (none, h)

def usernameOf (a : Bytes) : Bytes :=
  match (userinfo a).1 with
  | some u => (cut 58 u).1
  | none => []

/-- A password without a user is not read. -/
def passwordOf (a : Bytes) : Bytes :=
  match (userinfo a).1 with
  | some u => if usernameOf a = [] then [] else (cut 58 u).2.getD []
  | none => []

def hostOf (a : Bytes) : Bytes := (cut 58 (userinfo a).2).1

def defaultPort (scheme : Bytes) : UInt16 := if scheme = bytes "https" then 443 else 80

def portOf (scheme a : Bytes) : UInt16 :=
  match (cut 58 (userinfo a).2).2 with
  | some d => d.foldl nextPort 0
  | none => defaultPort scheme

def pathOf (b : Bytes) : Bytes := (cut 63 b).1

def queryOf (b : Bytes) : Bytes :=
  match (cut 63 b).2 with
  | some q => (cut 35 q).1
  | none => []

def fragmentOf (b : Bytes) : Bytes :=
  match (cut 63 b).2 with
  | some q => (cut 35 q).2.getD []
  | none => []

/-- The components of `scheme://`, an authority and what begins with the slash behind it. -/
def reading (url scheme a b : Bytes) : CUrl where
  url := url
  scheme := scheme
  username := usernameOf a
  password := passwordOf a
  host := hostOf a
  port := (portOf scheme a).toNat
  path := pathOf b
  query := queryOf b
  fragment := fragmentOf b

/-- The first separator of a text is behind this scheme, whatever comes after it. -/
def SchemeEnds (scheme : Bytes) : Prop :=
  ∀ t, strstr (bytes "://") (scheme ++ (bytes "://" ++ t)) = some scheme.length

variable {pre rest s url scheme a b : Bytes} {u : url_t}

/-- It does not depend on what comes after the separator. -/
theorem schemeEnds_of {t : Bytes}
    (h : strstr (bytes "://") (scheme ++ (bytes "://" ++ t)) = some scheme.length) :
    SchemeEnds scheme := by
  intro t'
  rw [strstr_eq] at h ⊢
  exact Pattern.find_append_congr h t'

/-- The scheme of a text that begins with one. -/
theorem parse_scheme_reading (h : SchemeEnds scheme) (hs : s = scheme ++ (bytes "://" ++ rest)) :
    parse_scheme s .zero =
      ({ url_t.zero with URL_SCHEME := span 0 scheme.length }, (scheme ++ bytes "://").length) := by
  rw [parse_scheme]
  rw [hs, h rest]
  rw [List.length_append]
  rfl

theorem userinfo_none (h : 64 ∉ a) : userinfo a = (none, a) := by
  rw [userinfo, cut_of_not_mem h]

theorem userinfo_some {v h : Bytes} (hv : 64 ∉ v) : userinfo (v ++ 64 :: h) = (some v, h) := by
  rw [userinfo, cut_append hv]

theorem usernameOf_some {v h : Bytes} (hv : 64 ∉ v) :
    usernameOf (v ++ 64 :: h) = (cut 58 v).1 := by
  rw [usernameOf, userinfo_some hv]

theorem passwordOf_some {v h : Bytes} (hv : 64 ∉ v) :
    passwordOf (v ++ 64 :: h) = if (cut 58 v).1 = [] then [] else (cut 58 v).2.getD [] := by
  rw [passwordOf, userinfo_some hv]
  simp only [usernameOf_some hv]

theorem account_none (h : 64 ∉ a) : usernameOf a = [] ∧ passwordOf a = [] := by
  rw [usernameOf, passwordOf, userinfo_none h]
  exact ⟨rfl, rfl⟩

/-- The stage of the user on an authority. -/
theorem user_reading (hs : s = pre ++ (a ++ rest)) (hlen : s.length ≤ 65535)
    (huser : u.URL_USERNAME = ⟨0, 0⟩) (hpassword : u.URL_PASSWORD = ⟨0, 0⟩) :
    ∃ w, a = w ++ (userinfo a).2 ∧
      (parse_user s u pre.length (pre.length + a.length)).2 = (pre ++ w).length ∧
      (parse_user s u pre.length (pre.length + a.length)).1.URL_USERNAME.substr s = usernameOf a ∧
      (if 0 < (parse_user s u pre.length (pre.length + a.length)).1.URL_USERNAME.len then
        (parse_user s u pre.length (pre.length + a.length)).1.URL_PASSWORD.substr s else []) =
        passwordOf a := by
  have hn : pre.length + a.length - pre.length = a.length := Nat.add_sub_cancel_left _ _
  rw [parse_user]
  rw [hn]
  obtain ⟨hat, -⟩ | ⟨v, h, rfl, hat, -⟩ := cut_cases 64 a
  · rw [strnchr_miss hs rfl hat rfl, userinfo_none hat, (account_none hat).1, (account_none hat).2]
    refine ⟨[], rfl, by rw [List.append_nil], ?_, ?_⟩
    · rw [huser, substr_zero]
    · rw [hpassword, substr_zero, ite_self]
  · rw [userinfo_some hat, usernameOf_some hat, passwordOf_some hat]
    have hs' : s = pre ++ (v ++ 64 :: (h ++ rest)) := by
      rw [hs]
      simp
    have hv : pre.length + v.length - pre.length = v.length := Nat.add_sub_cancel_left _ _
    have hsum : s.length = pre.length + (v.length + (h.length + rest.length + 1)) := by
      rw [hs']
      simp
    rw [strnchr_hit hs' rfl hat (by rw [List.length_append, List.length_cons]; omega)]
    simp only [hv]
    refine ⟨v ++ [64], by simp, ?_⟩
    obtain ⟨hcolon, hcut⟩ | ⟨name, word, rfl, hcolon, hcut⟩ := cut_cases 58 v
    · rw [strnchr_miss hs' rfl hcolon rfl, hcut]
      refine ⟨by simp [Nat.add_assoc], substr_span pre v _ hs' rfl rfl hlen, ?_⟩
      simp only [hpassword, substr_zero, ite_self, Option.getD_none]
    · have hs'' : s = pre ++ (name ++ 58 :: (word ++ 64 :: (h ++ rest))) := by
        rw [hs']
        simp
      rw [List.length_append, List.length_cons] at hsum
      rw [strnchr_hit hs'' rfl hcolon (by rw [List.length_append, List.length_cons]; omega), hcut]
      simp only [Nat.add_sub_cancel_left]
      refine ⟨by simp [Nat.add_assoc], substr_span pre name _ hs'' rfl rfl hlen, ?_⟩
      cases name with
      | nil => rfl
      | cons c name =>
        have hpos : 0 < (span pre.length (c :: name).length).len :=
          span_len_pos (Nat.succ_pos _) (by omega)
        rw [if_pos hpos, if_neg (List.cons_ne_nil _ _)]
        refine substr_span (pre ++ (c :: name ++ [58])) word (64 :: (h ++ rest)) ?_ ?_ ?_ hlen
        · rw [hs'']
          simp
        · simp [Nat.add_assoc]
        · simp only [List.length_append, List.length_cons]
          omega

/-- The stage of the host on what follows the user. -/
theorem host_reading {h : Bytes} (hs : s = pre ++ (h ++ rest)) (hlen : s.length ≤ 65535)
    (hport : u.port = 0) :
    (parse_host s u pre.length (pre.length + h.length)).URL_HOST.substr s = (cut 58 h).1 ∧
      (parse_host s u pre.length (pre.length + h.length)).port =
        match (cut 58 h).2 with
        | some d => d.foldl nextPort 0
        | none => if 0 < u.URL_SCHEME.len ∧ (bytes "https://").isPrefixOf s then 443 else 80 := by
  have hn : pre.length + h.length - pre.length = h.length := Nat.add_sub_cancel_left _ _
  rw [parse_host]
  rw [hn]
  obtain ⟨hcolon, hcut⟩ | ⟨host, d, rfl, hcolon, hcut⟩ := cut_cases 58 h
  · rw [strnchr_miss hs rfl hcolon rfl, hcut]
    exact ⟨substr_span pre h rest hs rfl rfl hlen, rfl⟩
  · have hs' : s = pre ++ (host ++ 58 :: (d ++ rest)) := by
      rw [hs]
      simp
    have hs'' : s = (pre ++ (host ++ [58])) ++ (d ++ rest) := by
      rw [hs']
      simp
    have hpos : pre.length + host.length + 1 = (pre ++ (host ++ [58])).length := by
      simp [Nat.add_assoc]
    have hdigits : pre.length + (host ++ 58 :: d).length - (pre.length + host.length) - 1 =
        d.length := by
      simp only [List.length_append, List.length_cons]
      omega
    have htext : (s.drop (pre.length + host.length + 1)).take d.length = d := by
      rw [hs'', hpos, List.drop_left, List.take_left]
    rw [strnchr_hit hs' rfl hcolon (by rw [List.length_append, List.length_cons]; omega), hcut]
    simp only [hdigits, htext, hport, Nat.add_sub_cancel_left]
    exact ⟨substr_span pre host _ hs' rfl rfl hlen, trivial⟩

theorem path_reading (hs : s = pre ++ b) (hlen : s.length ≤ 65535) (hquery : u.URL_QUERY = ⟨0, 0⟩)
    (hfragment : u.URL_FRAGMENT = ⟨0, 0⟩) :
    (parse_path s u pre.length).URL_PATH.substr s = pathOf b ∧
      (parse_path s u pre.length).URL_QUERY.substr s = queryOf b ∧
      (parse_path s u pre.length).URL_FRAGMENT.substr s = fragmentOf b := by
  rw [parse_path, pathOf, queryOf, fragmentOf]
  obtain ⟨hmark, hcut⟩ | ⟨path, q, rfl, hmark, hcut⟩ := cut_cases 63 b
  · rw [strchr_miss hs rfl hmark, hcut]
    refine ⟨substr_span pre b [] (by rw [hs, List.append_nil]) rfl ?_ hlen, ?_, ?_⟩
    · rw [hs, List.length_append, Nat.add_sub_cancel_left]
    · simp only [hquery, substr_zero]
    · simp only [hfragment, substr_zero]
  · have hs' : s = (pre ++ (path ++ [63])) ++ q := by
      rw [hs]
      simp
    have hpos : pre.length + path.length + 1 = (pre ++ (path ++ [63])).length := by
      simp [Nat.add_assoc]
    rw [strchr_hit hs rfl hmark, hcut]
    simp only [Nat.add_sub_cancel_left]
    have hpath : (span pre.length path.length).substr s = path :=
      substr_span pre path (63 :: q) hs rfl rfl hlen
    obtain ⟨hsharp, hcut'⟩ | ⟨query, fragment, rfl, hsharp, hcut'⟩ := cut_cases 35 q
    · rw [strchr_miss hs' hpos hsharp, hcut']
      refine ⟨hpath, substr_span _ q [] (by rw [hs', List.append_nil]) hpos ?_ hlen, ?_⟩
      · rw [hs', hpos, List.length_append, Nat.add_sub_cancel_left]
      · simp only [hfragment, substr_zero, Option.getD_none]
    · have hs'' : s = (pre ++ (path ++ [63]) ++ (query ++ [35])) ++ fragment := by
        rw [hs']
        simp
      have hpos' : pre.length + path.length + 1 + query.length + 1 =
          (pre ++ (path ++ [63]) ++ (query ++ [35])).length := by
        rw [List.length_append, ← hpos, List.length_append]
        rfl
      rw [strchr_hit hs' hpos hsharp, hcut']
      simp only [Nat.add_sub_cancel_left, Option.getD_some]
      refine ⟨hpath, substr_span _ query (35 :: fragment) hs' hpos rfl hlen,
        substr_span _ fragment [] (by rw [hs'', List.append_nil]) hpos' ?_ hlen⟩
      rw [hs'', hpos', List.length_append, Nat.add_sub_cancel_left]

theorem parse_path_frame (s : Bytes) (u : url_t) (sp : Nat) :
    (parse_path s u sp).URL_SCHEME = u.URL_SCHEME ∧
    (parse_path s u sp).URL_USERNAME = u.URL_USERNAME ∧
    (parse_path s u sp).URL_PASSWORD = u.URL_PASSWORD ∧
    (parse_path s u sp).URL_HOST = u.URL_HOST ∧ (parse_path s u sp).port = u.port := by
  rw [parse_path]
  cases strchr s sp 63 with
  | none => exact ⟨rfl, rfl, rfl, rfl, rfl⟩
  | some ep =>
    simp only
    cases strchr s (ep + 1) 35 with
    | none => exact ⟨rfl, rfl, rfl, rfl, rfl⟩
    | some ep' => exact ⟨rfl, rfl, rfl, rfl, rfl⟩

/-- What the scanner has noted of the scheme and the authority. -/
structure Noted (s x a : Bytes) (u : url_t) : Prop where
  scheme : u.URL_SCHEME.substr s = x
  username : u.URL_USERNAME.substr s = usernameOf a
  password : (if 0 < u.URL_USERNAME.len then u.URL_PASSWORD.substr s else []) = passwordOf a
  host : u.URL_HOST.substr s = hostOf a
  port : u.port = portOf x a

/-- The text starts with `https://` exactly if that is its scheme. -/
theorem https_iff (hends : SchemeEnds scheme) (t : Bytes) :
    (bytes "https://").isPrefixOf (scheme ++ (bytes "://" ++ t)) = true ↔
      scheme = bytes "https" := by
  have hhttps : bytes "https://" = bytes "https" ++ bytes "://" := by decide
  rw [List.isPrefixOf_iff_prefix, hhttps]
  constructor
  · intro h
    obtain ⟨w, hw⟩ := h
    have hfirst := hends t
    rw [← hw, List.append_assoc, strstr_hit (by decide)] at hfirst
    rw [List.append_assoc] at hw
    exact (List.append_inj_left hw (Option.some.inj hfirst)).symm
  · intro h
    rw [h, ← List.append_assoc]
    exact List.prefix_append _ _

theorem noted (hends : SchemeEnds scheme) (hne : scheme ≠ [])
    (hs : s = (scheme ++ bytes "://") ++ (a ++ rest)) (hlen : s.length ≤ 65535) :
    ∃ u, Noted s scheme a u ∧ u.URL_PATH = ⟨0, 0⟩ ∧ u.URL_QUERY = ⟨0, 0⟩ ∧
      u.URL_FRAGMENT = ⟨0, 0⟩ ∧ ∀ sp ep, sp = (scheme ++ bytes "://").length → ep = sp + a.length →
        ∀ v, parse_user s { url_t.zero with URL_SCHEME := span 0 scheme.length } sp ep = v →
          parse_host s v.1 v.2 ep = u := by
  obtain ⟨w, ha, hplace, huser, hpassword⟩ :=
    user_reading (u := { url_t.zero with URL_SCHEME := span 0 scheme.length }) hs hlen rfl rfl
  obtain ⟨h1, h2, h3, h4, h5⟩ := parse_user_frame s
    { url_t.zero with URL_SCHEME := span 0 scheme.length } (scheme ++ bytes "://").length
    ((scheme ++ bytes "://").length + a.length)
  generalize hv : parse_user s _ _ _ = v at *
  have hs' : s = (scheme ++ bytes "://" ++ w) ++ ((userinfo a).2 ++ rest) := by
    rw [hs, List.append_assoc _ w, ← List.append_assoc w, ← ha]
  have hend : (scheme ++ bytes "://").length + a.length =
      (scheme ++ bytes "://" ++ w).length + (userinfo a).2.length := by
    have hlength := congrArg List.length ha
    rw [List.length_append] at hlength
    rw [@List.length_append _ _ w]
    omega
  obtain ⟨hhost, hnumber⟩ := host_reading (u := v.1) hs' hlen h5
  obtain ⟨h1', h2', h3', h4', h5', h6'⟩ := parse_host_frame s v.1 v.2
    ((scheme ++ bytes "://").length + a.length)
  rw [← hend, ← hplace] at hhost hnumber
  refine ⟨_, ⟨?_, ?_, ?_, hhost, ?_⟩, h4'.trans h2, h5'.trans h3, h6'.trans h4, ?_⟩
  · rw [h1', h1]
    refine substr_span [] scheme (bytes "://" ++ (a ++ rest)) ?_ rfl rfl hlen
    rw [hs, List.append_assoc]
    rfl
  · rw [h2']
    exact huser
  · rw [h2', h3']
    exact hpassword
  · have hpos : 0 < (span 0 scheme.length).len := by
      refine span_len_pos (List.length_pos_iff.mpr hne) ?_
      rw [hs, List.append_assoc, List.length_append] at hlen
      omega
    rw [hnumber, portOf, h1, hs, List.append_assoc, defaultPort]
    simp only [hpos, true_and, https_iff hends]
  · intro sp ep hsp hep v' hv'
    subst hsp hep
    rw [hv] at hv'
    rw [hv']

/-- Within the text before the first zero byte it makes no difference which of the two is read. -/
theorem substr_cStr {f : Span} (h : f.Within (cStr url).length) :
    f.substr url = f.substr (cStr url) := by
  unfold Span.Within at h
  obtain ⟨z, hz⟩ : cStr url <+: url := List.takeWhile_prefix _
  have hdrop : (cStr url ++ z).drop f.off.toNat = (cStr url).drop f.off.toNat ++ z :=
    List.drop_append_of_le_length (by omega)
  rw [hz] at hdrop
  unfold Span.substr
  rw [hdrop, List.take_append_of_le_length (by rw [List.length_drop]; omega)]

/-- The object that the spans of the scanner make. -/
theorem parse_of_spans {u : url_t} (hurl : parse_url (cStr url) = (0, u))
    (hnoted : Noted (cStr url) scheme a u) (hpath : (if 0 < u.URL_PATH.len then
      u.URL_PATH.substr (cStr url) else [47]) = pathOf b)
    (hquery : u.URL_QUERY.substr (cStr url) = queryOf b)
    (hfragment : u.URL_FRAGMENT.substr (cStr url) = fragmentOf b) :
    parse url = (true, reading url scheme a b) := by
  have hw := url_t.Within.parse_url (cStr url)
  rw [hurl] at hw
  rw [parse, reading]
  rw [hurl]
  simp only [ne_eq, not_true_eq_false, if_false, substr_cStr hw.scheme, substr_cStr hw.username,
    substr_cStr hw.password, substr_cStr hw.host, substr_cStr hw.path, substr_cStr hw.query,
    substr_cStr hw.fragment, hnoted.scheme, hnoted.username, hnoted.password, hnoted.host,
    hnoted.port, hpath, hquery, hfragment]

/-- A text with a scheme and a slash behind it is read by its cuts. -/
theorem parse_reading (hends : SchemeEnds scheme) (hne : scheme ≠ []) (ha : 47 ∉ a)
    (hs : cStr url = (scheme ++ bytes "://") ++ (a ++ 47 :: b)) (hlen : (cStr url).length ≤ 65535) :
    parse url = (true, reading url scheme a (47 :: b)) := by
  obtain ⟨u, hnoted, -, hquery, hfragment, hu⟩ := noted hends hne hs hlen
  have hs' : cStr url = (scheme ++ bytes "://" ++ a) ++ 47 :: b := by
    rw [hs, List.append_assoc _ a]
  have hs'' : cStr url = scheme ++ (bytes "://" ++ (a ++ 47 :: b)) := by
    rw [hs, List.append_assoc]
  have hurl : parse_url (cStr url) =
      (0, parse_path (cStr url) u (scheme ++ bytes "://" ++ a).length) := by
    rw [parse_url]
    rw [if_neg (Nat.not_lt.mpr hlen), parse_scheme_reading hends hs'']
    simp only
    rw [strchr_hit hs rfl ha]
    simp only
    rw [hu _ _ rfl rfl _ rfl, @List.length_append _ (scheme ++ bytes "://")]
  obtain ⟨hpath, hquery, hfragment⟩ := path_reading hs' hlen hquery hfragment
  obtain ⟨h1, h2, h3, h4, h5⟩ := parse_path_frame (cStr url) u (scheme ++ bytes "://" ++ a).length
  have hslash : pathOf (47 :: b) ≠ [] := by
    rw [pathOf, cut, if_neg (by decide)]
    exact List.cons_ne_nil _ _
  refine parse_of_spans hurl ⟨?_, ?_, ?_, ?_, ?_⟩ ?_ hquery hfragment
  · rw [h1]
    exact hnoted.scheme
  · rw [h2]
    exact hnoted.username
  · rw [h2, h3]
    exact hnoted.password
  · rw [h4]
    exact hnoted.host
  · rw [h5]
    exact hnoted.port
  · rw [hpath, if_pos]
    refine Decidable.byContradiction fun hzero => hslash ?_
    rw [← hpath, Span.substr]
    rw [UInt16.lt_iff_toNat_lt, UInt16.toNat_zero] at hzero
    rw [Nat.eq_zero_of_not_pos hzero]
    rfl

/-- Without a slash the path is the root. -/
theorem parse_reading_root (hends : SchemeEnds scheme) (hne : scheme ≠ []) (ha : 47 ∉ a)
    (hs : cStr url = (scheme ++ bytes "://") ++ a) (hlen : (cStr url).length ≤ 65535) :
    parse url = (true, reading url scheme a [47]) := by
  have hs' : cStr url = (scheme ++ bytes "://") ++ (a ++ []) := by
    rw [hs, List.append_nil]
  have hs'' : cStr url = scheme ++ (bytes "://" ++ a) := by
    rw [hs, List.append_assoc]
  obtain ⟨u, hnoted, hpath, hquery, hfragment, hu⟩ := noted hends hne hs' hlen
  have hurl : parse_url (cStr url) = (0, u) := by
    rw [parse_url]
    rw [if_neg (Nat.not_lt.mpr hlen), parse_scheme_reading hends hs'']
    simp only
    rw [strchr_miss hs rfl ha]
    simp only
    rw [hu _ _ rfl (by rw [hs, List.length_append]) _ rfl]
  refine parse_of_spans hurl hnoted ?_ ?_ ?_
  · rw [hpath]
    rfl
  · rw [hquery, substr_zero]
    rfl
  · rw [hfragment, substr_zero]
    rfl

end CppPrivate.Url
