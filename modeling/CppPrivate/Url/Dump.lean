import CppPrivate.Url.Reading

/-! The text that `CUrl::dump` makes of the components, and what the parser reads from it. -/
namespace CppPrivate.Url

def toChar (n : Int) : UInt8 := UInt8.ofNat (n % 256).toNat

/-- `user:pswd@` -/
def dumpUser (username password : Bytes) : Bytes :=
  if username ≠ [] then username ++ ((if password ≠ [] then 58 :: password else []) ++ [64]) else []

/-- `host:port`. The text of the port is written to a buffer that nothing reads; what is appended is
the number itself. -/
def dumpHost (host : Bytes) (port : Int) : Bytes :=
  if host ≠ [] then host ++ (if port ≠ 80 ∧ port ≠ 443 then [toChar port] else []) else []

/-- The query or the fragment, with its mark. -/
def dumpMarked (mark : UInt8) (text : Bytes) : Bytes := if text ≠ [] then mark :: text else []

/-- The member `url`, which is returned. -/
def dump (u : CUrl) : CUrl :=
  { u with
    url := (if u.scheme ≠ [] then u.scheme ++ bytes "://" else []) ++
      (dumpUser u.username u.password ++ (dumpHost u.host u.port ++
        (u.path ++ (dumpMarked 63 u.query ++ dumpMarked 35 u.fragment)))) }

/-- What a text with a scheme and a slash behind it is read as. -/
structure Shaped (u : CUrl) : Prop where
  ends : SchemeEnds u.scheme
  scheme : u.scheme ≠ []
  slash : ∀ x ∈ [u.username, u.password, u.host], 47 ∉ x
  username : 58 ∉ u.username ∧ 64 ∉ u.username
  password : 64 ∉ u.password ∧ (u.username = [] → u.password = [])
  host : 58 ∉ u.host
  path : ∃ y, u.path = 47 :: y
  mark : 63 ∉ u.path ∧ 35 ∉ u.query
  zero : ∀ x ∈ [u.scheme, u.username, u.password, u.host, u.path, u.query, u.fragment], 0 ∉ x
  length : u.scheme.length + 3 + ((dumpUser u.username u.password).length + u.host.length) +
    (u.path.length + ((dumpMarked 63 u.query).length + (dumpMarked 35 u.fragment).length)) ≤ 65535

variable {a b s url scheme : Bytes} {u : CUrl}

structure Account (a : Bytes) (x w h : Bytes) : Prop where
  username : 58 ∉ x ∧ 64 ∉ x
  password : 64 ∉ w ∧ (x = [] → w = [])
  host : 58 ∉ h
  subset : x ⊆ a ∧ w ⊆ a ∧ h ⊆ a
  length : (dumpUser x w).length + h.length ≤ a.length

theorem account (a : Bytes) : Account a (usernameOf a) (passwordOf a) (hostOf a) := by
  have hhost : 58 ∉ hostOf a := not_mem_cut 58 _
  have hpre : hostOf a <+: (userinfo a).2 := cut_begins 58 _
  obtain ⟨hat, -⟩ | ⟨v, h, rfl, hat, -⟩ := cut_cases 64 a
  · obtain ⟨hu, hw⟩ := account_none hat
    simp only [userinfo_none hat] at hpre
    rw [hu, hw]
    exact ⟨by simp, by simp, hhost, ⟨by simp, by simp, hpre.subset⟩, by
      have hle := hpre.length_le
      simp only [dumpUser, ne_eq, not_true_eq_false, if_false, List.length_nil]
      omega⟩
  · simp only [userinfo_some hat] at hpre
    have hle := hpre.length_le
    have hsub : hostOf (v ++ 64 :: h) ⊆ v ++ 64 :: h := fun c hc => by
      simp [hpre.subset hc]
    rw [usernameOf_some hat, passwordOf_some hat]
    obtain ⟨hcolon, hcut⟩ | ⟨name, word, rfl, hcolon, hcut⟩ := cut_cases 58 v
    · rw [hcut]
      refine ⟨⟨hcolon, hat⟩, by simp, hhost, ⟨List.subset_append_left _ _, by simp, hsub⟩, ?_⟩
      simp only [dumpUser, Option.getD_none, ite_self, ne_eq, not_true_eq_false, if_false,
        List.nil_append]
      split
      · simp only [List.length_append, List.length_cons, List.length_nil]
        omega
      · simp only [List.length_append, List.length_cons, List.length_nil]
        omega
    · rw [hcut]
      simp only [List.mem_append, List.mem_cons, not_or] at hat
      obtain ⟨hname, -, hword⟩ := hat
      by_cases hne : name = []
      · subst hne
        simp only [if_true]
        refine ⟨by simp, by simp, hhost, ⟨by simp, by simp, hsub⟩, ?_⟩
        simp only [dumpUser, ne_eq, not_true_eq_false, if_false, List.length_nil,
          List.length_append, List.length_cons]
        omega
      · simp only [if_neg hne, Option.getD_some]
        refine ⟨⟨hcolon, hname⟩, ⟨hword, fun h => absurd h hne⟩, hhost, ⟨?_, ?_, hsub⟩, ?_⟩
        · exact fun c hc => by simp [hc]
        · exact fun c hc => by simp [hc]
        · simp only [dumpUser, if_pos (show name ≠ [] from hne)]
          split
          · simp only [List.length_append, List.length_cons, List.length_nil]
            omega
          · simp only [List.length_append, List.length_cons, List.length_nil]
            omega

structure Resource (b : Bytes) (x q f : Bytes) : Prop where
  mark : 63 ∉ x ∧ 35 ∉ q
  subset : x ⊆ b ∧ q ⊆ b ∧ f ⊆ b
  length : x.length + ((dumpMarked 63 q).length + (dumpMarked 35 f).length) ≤ b.length

theorem length_dumpMarked_le (mark : UInt8) (text : Bytes) :
    (dumpMarked mark text).length ≤ text.length + 1 := by
  rw [dumpMarked]
  split
  · exact Nat.le_refl _
  · exact Nat.zero_le _

theorem resource (b : Bytes) : Resource b (pathOf b) (queryOf b) (fragmentOf b) := by
  rw [pathOf, queryOf, fragmentOf]
  obtain ⟨hmark, hcut⟩ | ⟨path, q, rfl, hmark, hcut⟩ := cut_cases 63 b
  · rw [hcut]
    refine ⟨⟨hmark, by simp⟩, ⟨List.Subset.refl b, by simp, by simp⟩, ?_⟩
    simp [dumpMarked]
  · rw [hcut]
    obtain ⟨hsharp, hcut'⟩ | ⟨query, fragment, rfl, hsharp, hcut'⟩ := cut_cases 35 q
    · simp only [hcut', Option.getD_none]
      have hle := length_dumpMarked_le 63 q
      refine ⟨⟨hmark, hsharp⟩, ⟨fun c hc => by simp [hc], fun c hc => by simp [hc], by simp⟩, ?_⟩
      have hnil : (dumpMarked 35 []).length = 0 := rfl
      rw [hnil, List.length_append, List.length_cons]
      omega
    · simp only [hcut', Option.getD_some]
      have hle := length_dumpMarked_le 63 query
      have hle' := length_dumpMarked_le 35 fragment
      refine ⟨⟨hmark, hsharp⟩,
        ⟨fun c hc => by simp [hc], fun c hc => by simp [hc], fun c hc => by simp [hc]⟩, ?_⟩
      simp only [List.length_append, List.length_cons]
      omega

theorem shaped_reading (hends : SchemeEnds scheme) (hne : scheme ≠ []) (ha : 47 ∉ a)
    (hzero : 0 ∉ (scheme ++ bytes "://") ++ (a ++ 47 :: b))
    (hlen : ((scheme ++ bytes "://") ++ (a ++ 47 :: b)).length ≤ 65535) :
    Shaped (reading url scheme a (47 :: b)) := by
  have hsep : (bytes "://").length = 3 := by decide
  obtain ⟨husername, hpassword, hhost, ⟨h1, h2, h3⟩, hlength⟩ := account a
  obtain ⟨hmark, ⟨h4, h5, h6⟩, hlength'⟩ := resource (47 :: b)
  simp only [List.mem_append, not_or] at hzero
  obtain ⟨⟨hzero, -⟩, hzero', hzero''⟩ := hzero
  refine ⟨hends, hne, ?_, husername, hpassword, hhost, ?_, hmark, ?_, ?_⟩
  · simp only [List.mem_cons, List.not_mem_nil, or_false]
    intro x hx
    obtain rfl | rfl | rfl := hx
    · exact fun h => ha (h1 h)
    · exact fun h => ha (h2 h)
    · exact fun h => ha (h3 h)
  · refine ⟨(cut 63 b).1, ?_⟩
    simp only [reading, pathOf]
    rw [cut, if_neg (by decide)]
  · simp only [List.mem_cons, List.not_mem_nil, or_false]
    intro x hx
    obtain rfl | rfl | rfl | rfl | rfl | rfl | rfl := hx
    · exact hzero
    · exact fun h => hzero' (h1 h)
    · exact fun h => hzero' (h2 h)
    · exact fun h => hzero' (h3 h)
    · exact fun h => hzero'' (h4 h)
    · exact fun h => hzero'' (h5 h)
    · exact fun h => hzero'' (h6 h)
  · simp only [List.length_append, hsep] at hlen
    simp only [reading]
    omega

/-- The authority that is written back, with `e` for what stands in the place of the port. -/
def dumpAuthority (u : CUrl) (e : Bytes) : Bytes :=
  dumpUser u.username u.password ++ (u.host ++ e)

def portText (u : CUrl) : Bytes :=
  if u.host ≠ [] ∧ u.port ≠ 80 ∧ u.port ≠ 443 then [toChar u.port] else []

def dumpTail (u : CUrl) : Bytes := u.path ++ (dumpMarked 63 u.query ++ dumpMarked 35 u.fragment)

theorem dump_url (h : u.scheme ≠ []) : (dump u).url =
    (u.scheme ++ bytes "://") ++ (dumpAuthority u (portText u) ++ dumpTail u) := by
  have hhost : dumpHost u.host u.port = u.host ++ portText u := by
    rw [dumpHost, portText]
    by_cases hne : u.host = []
    · simp only [hne, ne_eq, not_true_eq_false, if_false, false_and, List.append_nil]
    · simp only [ne_eq, hne, not_false_eq_true, if_true, true_and]
  simp only [dump, dumpAuthority, dumpTail, if_pos h, hhost, List.append_assoc]

theorem mem_dumpUser {c : UInt8} {x w : Bytes} (h : c ∈ dumpUser x w) :
    c ∈ x ∨ c ∈ w ∨ c = 58 ∨ c = 64 := by
  rw [dumpUser] at h
  split at h
  · split at h
    · simp only [List.mem_append, List.mem_cons, List.not_mem_nil, or_false] at h
      grind
    · simp only [List.mem_append, List.mem_cons, List.not_mem_nil, or_false] at h
      grind
  · cases h

/-- Before the port the authority has neither a slash nor a zero byte. -/
theorem Shaped.not_mem_authority (h : Shaped u) :
    47 ∉ dumpAuthority u [] ∧ 0 ∉ dumpAuthority u [] := by
  have hslash := h.slash
  have hzero := h.zero
  simp only [List.mem_cons, List.not_mem_nil, or_false, forall_eq_or_imp, forall_eq] at hslash hzero
  rw [dumpAuthority]
  constructor
  · intro hm
    simp only [List.mem_append, List.not_mem_nil, or_false] at hm
    obtain hm | hm := hm
    · obtain hm | hm | hm | hm := mem_dumpUser hm
      · exact hslash.1 hm
      · exact hslash.2.1 hm
      · exact absurd hm (by decide)
      · exact absurd hm (by decide)
    · exact hslash.2.2 hm
  · intro hm
    simp only [List.mem_append, List.not_mem_nil, or_false] at hm
    obtain hm | hm := hm
    · obtain hm | hm | hm | hm := mem_dumpUser hm
      · exact hzero.2.1 hm
      · exact hzero.2.2.1 hm
      · exact absurd hm (by decide)
      · exact absurd hm (by decide)
    · exact hzero.2.2.2.1 hm

/-- The user that is written back is found again. -/
theorem Shaped.userinfo_dump (h : Shaped u) (hne : u.username ≠ []) (e : Bytes) :
    (userinfo (dumpAuthority u e)).2 = u.host ++ e ∧
      usernameOf (dumpAuthority u e) = u.username ∧
      passwordOf (dumpAuthority u e) = u.password := by
  have hall : ∃ v, dumpAuthority u e = v ++ 64 :: (u.host ++ e) ∧ 64 ∉ v ∧
      (cut 58 v).1 = u.username ∧ (cut 58 v).2.getD [] = u.password := by
    rw [dumpAuthority, dumpUser]
    by_cases hword : u.password = []
    · refine ⟨u.username, by simp [hne, hword], h.username.2, ?_, ?_⟩
      · rw [cut_of_not_mem h.username.1]
      · rw [cut_of_not_mem h.username.1, hword]
        rfl
    · refine ⟨u.username ++ 58 :: u.password, by simp [hne, hword], ?_, ?_, ?_⟩
      · simp only [List.mem_append, List.mem_cons, not_or]
        exact ⟨h.username.2, by decide, h.password.1⟩
      · rw [cut_append h.username.1]
      · rw [cut_append h.username.1]
        rfl
  obtain ⟨v, hv, hat, hname, hword⟩ := hall
  rw [hv, userinfo_some hat, usernameOf_some hat, passwordOf_some hat, hname, if_neg hne, hword]
  exact ⟨rfl, rfl, rfl⟩

theorem authority_none (hnil : u.username = []) (e : Bytes) :
    dumpAuthority u e = u.host ++ e := by
  rw [dumpAuthority, dumpUser, if_neg (not_not_intro hnil), List.nil_append]

/-- What follows the user ends the host and what stands for the port. -/
theorem Shaped.userinfo_suffix (h : Shaped u) (e : Bytes) :
    (userinfo (dumpAuthority u e)).2 <:+ u.host ++ e := by
  by_cases hne : u.username = []
  · rw [authority_none hne, userinfo]
    obtain ⟨-, hcut⟩ | ⟨v, w, hv, -, hcut⟩ := cut_cases 64 (u.host ++ e)
    · exact ⟨[], by rw [hcut, List.nil_append]⟩
    · exact ⟨v ++ [64], by rw [hcut, hv, List.append_assoc]; rfl⟩
  · exact ⟨[], (h.userinfo_dump hne e).1⟩

/-- No number comes back: a colon is there only if the character is one, and nothing follows it. -/
theorem Shaped.portOf_dump (h : Shaped u) {e : Bytes} (he : e.length ≤ 1) :
    portOf u.scheme (dumpAuthority u e) = defaultPort u.scheme ∨
      e = [58] ∧ portOf u.scheme (dumpAuthority u e) = 0 := by
  have hsuffix := h.userinfo_suffix e
  rw [portOf]
  obtain ⟨-, hcut⟩ | ⟨x, d, hx, -, hcut⟩ := cut_cases 58 (userinfo (dumpAuthority u e)).2
  · rw [hcut]
    exact Or.inl rfl
  · rw [hcut]
    rw [hx] at hsuffix
    obtain ⟨l, hl⟩ := hsuffix
    rw [← List.append_assoc] at hl
    -- the host has no colon, so that the colon is the character behind it
    have hend : e = [58] ∧ d = [] := by
      cases e with
      | nil =>
        rw [List.append_nil] at hl
        exact absurd (hl ▸ by simp) h.host
      | cons c e =>
        obtain rfl : e = [] := List.eq_nil_of_length_eq_zero (by
          rw [List.length_cons] at he
          omega)
        obtain rfl | ⟨d', c', rfl⟩ := List.eq_nil_or_concat d
        · have hlast := (List.append_inj' hl rfl).2
          exact ⟨hlast.symm, rfl⟩
        · rw [List.concat_eq_append, ← List.cons_append, ← List.append_assoc] at hl
          have hhost := (List.append_inj' hl rfl).1
          exact absurd (hhost ▸ by simp) h.host
    obtain ⟨rfl, rfl⟩ := hend
    exact Or.inr ⟨rfl, rfl⟩

theorem Shaped.zero_tail (h : Shaped u) : 0 ∉ dumpTail u := by
  have hzero := h.zero
  simp only [List.mem_cons, List.not_mem_nil, or_false, forall_eq_or_imp, forall_eq] at hzero
  obtain ⟨-, -, -, -, hpath, hquery, hfragment⟩ := hzero
  have hmarked : ∀ {mark : UInt8} {text : Bytes}, mark ≠ 0 → 0 ∉ text →
      0 ∉ dumpMarked mark text := by
    intro mark text hmark htext hm
    rw [dumpMarked] at hm
    split at hm
    · cases hm with
      | head => exact hmark rfl
      | tail _ hm => exact htext hm
    · cases hm
  rw [dumpTail]
  simp only [List.mem_append, not_or]
  exact ⟨hpath, hmarked (by decide) hquery, hmarked (by decide) hfragment⟩

theorem portText_cons (h : portText u ≠ []) : portText u = [toChar u.port] := by
  unfold portText at h ⊢
  split at h
  · rename_i hset
    rw [if_pos hset]
  · exact absurd rfl h

/-- What is read of the text that is written back. The character in the place of the port may end
the text or the authority, or belong to it. -/
theorem Shaped.parse_dump (h : Shaped u) (hlen : (cStr (dump u).url).length ≤ 65535) :
    ∃ e b, (e = [] ∨ e = portText u) ∧ (portText u = [] → b = dumpTail u) ∧
      parse (dump u).url =
        (true, reading (dump u).url u.scheme (dumpAuthority u e) b) := by
  obtain ⟨hslash, hzero⟩ := h.not_mem_authority
  obtain ⟨y, hy⟩ : ∃ y, dumpTail u = 47 :: y := by
    obtain ⟨y, hy⟩ := h.path
    exact ⟨_, by rw [dumpTail, hy]; rfl⟩
  have happend : ∀ e, dumpAuthority u e = dumpAuthority u [] ++ e := by
    intro e
    simp [dumpAuthority]
  have hall : cStr (dump u).url = (u.scheme ++ bytes "://") ++
      (dumpAuthority u [] ++ cStr (portText u ++ dumpTail u)) := by
    have hscheme : 0 ∉ u.scheme ++ bytes "://" := by
      simp only [List.mem_append, not_or]
      exact ⟨h.zero _ List.mem_cons_self, by decide⟩
    rw [dump_url h.scheme, cStr_append hscheme, happend (portText u),
      List.append_assoc (dumpAuthority u []), cStr_append hzero]
  have hread : ∀ {e b : Bytes}, 47 ∉ e →
      cStr (portText u ++ dumpTail u) = e ++ 47 :: b → parse (dump u).url =
        (true, reading (dump u).url u.scheme (dumpAuthority u e) (47 :: b)) := by
    intro e b he hb
    refine parse_reading h.ends h.scheme ?_ ?_ hlen
    · rw [happend e]
      simp only [List.mem_append, not_or]
      exact ⟨hslash, he⟩
    · rw [hall, hb, happend e, List.append_assoc (dumpAuthority u [])]
  by_cases hnone : portText u = []
  · refine ⟨[], dumpTail u, Or.inl rfl, fun _ => rfl, ?_⟩
    rw [hy]
    refine hread (by simp) ?_
    rw [hnone, ← hy]
    exact cStr_eq h.zero_tail
  · have hport := portText_cons hnone
    have htail : toChar u.port ≠ 0 → cStr (portText u ++ dumpTail u) =
        toChar u.port :: dumpTail u := by
      intro hne
      rw [hport]
      refine cStr_eq ?_
      simp only [List.singleton_append, List.mem_cons, not_or]
      exact ⟨hne.symm, h.zero_tail⟩
    by_cases hnul : toChar u.port = 0
    · refine ⟨[], [47], Or.inl rfl, fun hnil => absurd hnil hnone, ?_⟩
      refine parse_reading_root h.ends h.scheme hslash ?_ hlen
      have hnil : cStr (portText u ++ dumpTail u) = [] := by
        rw [hport, hnul]
        rfl
      rw [hall, hnil, List.append_nil]
    · by_cases hsep : toChar u.port = 47
      · refine ⟨[], 47 :: dumpTail u, Or.inl rfl, fun hnil => absurd hnil hnone, ?_⟩
        refine hread (by simp) ?_
        rw [htail hnul, hsep]
        rfl
      · refine ⟨portText u, 47 :: y, Or.inr rfl, fun hnil => absurd hnil hnone, ?_⟩
        refine hread ?_ ?_
        · rw [hport]
          exact fun hm => hsep (List.mem_singleton.mp hm).symm
        · rw [htail hnul, hport, ← hy]
          rfl

/-- Behind the path the query and the fragment are found, as long as a query marks the fragment. -/
theorem Shaped.read_tail (h : Shaped u) (hmarked : u.fragment ≠ [] → u.query ≠ []) :
    pathOf (dumpTail u) = u.path ∧ queryOf (dumpTail u) = u.query ∧
      fragmentOf (dumpTail u) = u.fragment := by
  obtain ⟨hmark, hsharp⟩ := h.mark
  unfold pathOf queryOf fragmentOf dumpTail dumpMarked
  by_cases hquery : u.query = []
  · have hfragment : u.fragment = [] := by
      by_contra hne
      exact hmarked hne hquery
    simp only [hquery, hfragment, ne_eq, not_true_eq_false, if_false, List.append_nil,
      cut_of_not_mem hmark, and_self]
  · by_cases hfragment : u.fragment = []
    · simp only [hfragment, ne_eq, hquery, not_false_eq_true, if_true, not_true_eq_false, if_false,
        List.append_nil, cut_append hmark, cut_of_not_mem hsharp, Option.getD_none, and_self]
    · simp only [ne_eq, hquery, hfragment, not_false_eq_true, if_true, List.cons_append,
        cut_append hmark, cut_append hsharp, Option.getD_some, and_self]

/-- The host is found again unless an at sign in it is taken for the end of a user. -/
theorem Shaped.read_authority (h : Shaped u) (hat : u.username = [] → 64 ∉ u.host) :
    usernameOf (dumpAuthority u []) = u.username ∧ passwordOf (dumpAuthority u []) = u.password ∧
      hostOf (dumpAuthority u []) = u.host := by
  rw [hostOf]
  by_cases hne : u.username = []
  · have hhost := hat hne
    rw [authority_none hne, List.append_nil, userinfo_none hhost, cut_of_not_mem h.host]
    exact ⟨(account_none hhost).1.trans hne.symm,
      (account_none hhost).2.trans (h.password.2 hne).symm, rfl⟩
  · obtain ⟨hinfo, hname, hword⟩ := h.userinfo_dump hne []
    rw [hinfo, List.append_nil, cut_of_not_mem h.host]
    exact ⟨hname, hword, rfl⟩

theorem parse_long (h : 65535 < (cStr url).length) : (parse url).1 = false := by
  rw [parse, parse_url]
  rw [if_pos h]
  rfl

/-- The port that is taken where none is written is not written. -/
theorem portText_default (h : u.port = (defaultPort u.scheme).toNat) : portText u = [] := by
  refine if_neg fun hset => ?_
  rw [defaultPort] at h
  split at h
  · exact hset.2.2 h
  · exact hset.2.1 h

theorem Shaped.length_dump (h : Shaped u) (hnone : portText u = []) :
    (cStr (dump u).url).length ≤ 65535 := by
  have hle : (cStr (dump u).url).length ≤ (dump u).url.length :=
    (List.takeWhile_prefix _).length_le
  have hbound := h.length
  have hsep : (bytes "://").length = 3 := by decide
  rw [dump_url h.scheme, hnone, dumpAuthority, dumpTail] at hle
  simp only [List.length_append, hsep, List.append_nil] at hle
  rw [dump_url h.scheme, hnone, dumpAuthority, dumpTail]
  simp only [List.append_nil]
  omega

/-- A port that comes back is the one that is taken where none is written. -/
theorem Shaped.default_of_port (h : Shaped u) {e : Bytes} (he : e = [] ∨ e = portText u)
    (hport : ((portOf u.scheme (dumpAuthority u e)).toNat : Int) = u.port) :
    u.port = (defaultPort u.scheme).toNat := by
  have hone : e.length ≤ 1 := by
    obtain rfl | rfl := he
    · exact Nat.zero_le 1
    · rw [portText]
      split
      · exact Nat.le_refl 1
      · exact Nat.zero_le 1
  obtain hdefault | ⟨hcolon, hzero⟩ := h.portOf_dump hone
  · rw [← hport, hdefault]
  · -- a port of zero would not have been written as a colon
    rw [hzero] at hport
    rw [hcolon] at he
    rw [portText] at he
    rw [← hport] at he
    obtain he | he := he
    · cases he
    · split at he
      · exact absurd he (by decide)
      · cases he

/-- A host that comes back has no at sign where a user might end. -/
theorem not_mem_of_host (hname : u.username = [])
    (hhost : hostOf (dumpAuthority u []) = u.host) : 64 ∉ u.host := by
  intro hat
  rw [authority_none hname, List.append_nil, hostOf] at hhost
  obtain ⟨v, w, hv, hfree⟩ := List.eq_append_cons_of_mem hat
  have hle := (cut_begins 58 w).length_le
  have hlength := congrArg List.length hhost
  rw [hv, userinfo_some hfree, List.length_append, List.length_cons] at hlength
  simp only at hlength
  omega

/-- With a path that comes back, a query marks the fragment. -/
theorem Shaped.marked_of_path (h : Shaped u) (hpath : pathOf (dumpTail u) = u.path)
    (hfragment : u.fragment ≠ []) : u.query ≠ [] := by
  intro hquery
  rw [pathOf, dumpTail, dumpMarked, if_neg (not_not_intro hquery), List.nil_append, dumpMarked,
    if_pos hfragment, cut_append_left h.mark.1, cut, if_neg (by decide)] at hpath
  simp at hpath

/-- Parsing what was written back gives the components again exactly if the port is the one that
is taken where none is written, a query comes with the fragment, and no at sign in the host stands
where a user might end. -/
theorem Shaped.reparse_iff (h : Shaped u) : parse (dump u).url = (true, dump u) ↔
    u.port = (defaultPort u.scheme).toNat ∧ (u.fragment ≠ [] → u.query ≠ []) ∧
      (u.username = [] → 64 ∉ u.host) := by
  constructor
  · intro hparse
    have hlen : (cStr (dump u).url).length ≤ 65535 := by
      by_contra hlong
      have hfalse := parse_long (Nat.lt_of_not_le hlong)
      rw [hparse] at hfalse
      cases hfalse
    obtain ⟨e, b, he, hb, hread⟩ := h.parse_dump hlen
    rw [hread] at hparse
    have hcurl := congrArg Prod.snd hparse
    simp only [reading, dump, CUrl.mk.injEq] at hcurl
    obtain ⟨-, -, -, -, hhost, hport, hpath, -, -⟩ := hcurl
    have hdefault := h.default_of_port he hport
    have hnone := portText_default hdefault
    obtain rfl : e = [] := he.elim id fun heq => heq.trans hnone
    rw [hb hnone] at hpath
    exact ⟨hdefault, h.marked_of_path hpath, fun hname => not_mem_of_host hname hhost⟩
  · intro hcond
    obtain ⟨hport, hmarked, hat⟩ := hcond
    have hnone := portText_default hport
    obtain ⟨e, b, he, hb, hread⟩ := h.parse_dump (h.length_dump hnone)
    obtain rfl : e = [] := he.elim id fun heq => heq.trans hnone
    obtain ⟨hpath, hquery, hfragment⟩ := h.read_tail hmarked
    obtain ⟨hname, hword, hhost⟩ := h.read_authority hat
    have hnumber : portOf u.scheme (dumpAuthority u []) = defaultPort u.scheme :=
      (h.portOf_dump (e := []) (Nat.zero_le 1)).elim id fun hcolon => absurd hcolon.1 (by simp)
    rw [hread, hb hnone]
    refine Prod.ext rfl ?_
    simp only [reading, hname, hword, hhost, hpath, hquery, hfragment, hnumber, ← hport]
    rfl

theorem strstr_split {pat : Bytes} {i : Nat} (h : strstr pat s = some i) :
    ∃ rest, s = s.take i ++ (pat ++ rest) := by
  rw [strstr_eq] at h
  exact Pattern.find_split h

/-- The later stages leave the scheme alone. -/
theorem parse_url_scheme (h : s.length ≤ 65535) :
    (parse_url s).2.URL_SCHEME = (parse_scheme s .zero).1.URL_SCHEME := by
  rw [parse_url]
  rw [if_neg (Nat.not_lt.mpr h)]
  simp only
  cases strchr s (parse_scheme s .zero).2 47 with
  | none => exact (parse_host_frame _ _ _ _).1.trans (parse_user_frame _ _ _ _).1
  | some ep =>
    refine (parse_path_frame _ _ _).1.trans ?_
    exact (parse_host_frame _ _ _ _).1.trans (parse_user_frame _ _ _ _).1

/-- The scheme that is read ends at the first separator. -/
theorem strstr_of_scheme (hlen : (cStr url).length ≤ 65535) (hzero : cStr url = url)
    (hscheme : (parse url).2.scheme = scheme) (hne : scheme ≠ []) :
    strstr (bytes "://") url = some scheme.length := by
  have hw := (url_t.Within.parse_url (cStr url)).scheme
  have hread : (parse_url url).2.URL_SCHEME.substr url = scheme := by
    rw [parse] at hscheme
    rw [hzero] at hscheme hlen
    unfold parse_url at hscheme ⊢
    rw [if_neg (Nat.not_lt.mpr hlen)] at hscheme ⊢
    simp only at hscheme ⊢
    cases hslash : strchr url (parse_scheme url .zero).2 47 with
    | none =>
      simp only [hslash] at hscheme ⊢
      exact hscheme
    | some ep =>
      simp only [hslash] at hscheme ⊢
      exact hscheme
  rw [hzero] at hlen
  rw [parse_url_scheme hlen, parse_scheme] at hread
  cases hsep : strstr (bytes "://") url with
  | none =>
    rw [hsep] at hread
    exact absurd ((substr_zero url).symm.trans hread).symm hne
  | some ep =>
    rw [hsep] at hread
    obtain ⟨rest, hrest⟩ := strstr_split hsep
    have hle : ep ≤ url.length := by
      have := strstr_le hsep
      omega
    have htake : (span 0 ep).substr url = url.take ep :=
      substr_span [] (url.take ep) (bytes "://" ++ rest) hrest rfl
        (by rw [List.length_take]; omega) hlen
    have hlength : scheme.length = ep := by
      rw [← hread]
      simp only
      rw [htake, List.length_take]
      omega
    rw [hlength]

namespace Parts
variable {p : Parts} {x y : Bytes}

/-- A text that is taken apart as it was put together. -/
theorem shaped (hscheme : p.scheme = some x) (hx : x ≠ []) (hpath : p.path = some y)
    (hdigits : ∀ d ∈ p.port, ∀ c ∈ d, isDigit c) (hparse : parse p.assemble = (true, p.url)) :
    Shaped p.url := by
  have hzero := cStr_assemble (zero_of_parse hdigits hparse)
  have hlen : (cStr p.assemble).length ≤ 65535 := by
    by_contra hlong
    have hfalse := parse_long (Nat.lt_of_not_le hlong)
    rw [hparse] at hfalse
    cases hfalse
  have hs : p.assemble = x ++ (bytes "://" ++ (p.authority ++ p.tail)) := by
    simp only [assemble, hscheme, set, List.nil_append, List.append_assoc]
  have hends : SchemeEnds x := by
    refine schemeEnds_of (t := p.authority ++ p.tail) ?_
    rw [← hs]
    refine strstr_of_scheme hlen hzero ?_ hx
    rw [hparse, url, hscheme]
    rfl
  have hslash : 47 ∈ p.authority ++ p.tail := by
    simp [tail, hpath, set]
  obtain ⟨a, b, hab, ha⟩ := List.eq_append_cons_of_mem hslash
  rw [hab, ← List.append_assoc] at hs
  have hread := parse_reading hends hx ha (hzero.trans hs) hlen
  rw [hparse] at hread
  have hurl : p.url = reading p.assemble x a (47 :: b) := congrArg Prod.snd hread
  rw [hurl]
  refine shaped_reading hends hx ha ?_ ?_
  · rw [← hs, ← hzero]
    exact not_mem_cStr _
  · rw [← hs, ← hzero]
    exact hlen

/-- For a text with a scheme and a path that was taken apart as it was put together: parsing what
`dump` returns gives the components again exactly if the port is the default of the scheme, a query
comes with the fragment, and the host has no at sign where there is no user. -/
theorem dump_iff (hscheme : p.scheme = some x) (hx : x ≠ []) (hpath : p.path = some y)
    (hdigits : ∀ d ∈ p.port, ∀ c ∈ d, isDigit c) (hparse : parse p.assemble = (true, p.url)) :
    parse (dump p.url).url = (true, dump p.url) ↔
      p.url.port = (if x = bytes "https" then 443 else 80) ∧
        (p.url.fragment ≠ [] → p.url.query ≠ []) ∧ (p.url.username = [] → 64 ∉ p.host) := by
  have hdefault : ((defaultPort p.url.scheme).toNat : Int) =
      if x = bytes "https" then 443 else 80 := by
    have hx : p.url.scheme = x := by
      rw [url, hscheme]
      rfl
    rw [hx, defaultPort]
    split <;> rfl
  rw [(shaped hscheme hx hpath hdigits hparse).reparse_iff, hdefault]
  rfl

def plain : Parts :=
  ⟨some (bytes "https"), some (bytes "u", some (bytes "p")), bytes "h", none, some (bytes "x"),
    some (bytes "q"), some (bytes "f")⟩

theorem dump_plain : parse (dump plain.url).url = (true, dump plain.url) := by
  refine (dump_iff (p := plain) rfl (by decide) rfl ?_ (by decide)).mpr
    ⟨by decide, by decide, by decide⟩
  intro d hd
  cases hd

/-- A URL with a port that is no default, `http://h:8080/x`. -/
def withPort : Parts :=
  ⟨some (bytes "http"), none, bytes "h", some (bytes "8080"), some (bytes "x"), none, none⟩

theorem not_dump : parse withPort.assemble = (true, withPort.url) ∧
    parse (dump withPort.url).url ≠ (true, dump withPort.url) ∧
    (parse (dump withPort.url).url).2.port = 80 := by
  refine ⟨by decide, by decide, by decide⟩

end Parts
end CppPrivate.Url
