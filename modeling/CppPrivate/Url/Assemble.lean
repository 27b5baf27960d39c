import CppPrivate.Url.Parse

/-! The texts that `CUrl` is to parse, put together from their components, and which of them it
takes apart as they were. -/
namespace CppPrivate.Url

/-- The components of `[scheme://][user[:password]@]host[:port][/path][?query][#fragment]`. -/
structure Parts where
  scheme : Option Bytes
  user : Option (Bytes × Option Bytes)
  host : Bytes
  port : Option Bytes
  path : Option Bytes
  query : Option Bytes
  fragment : Option Bytes

/-- A part with what sets it off, if it is present. -/
def set (pre : Bytes) (part : Option Bytes) (post : Bytes) : Bytes :=
  match part with
  | some x => pre ++ x ++ post
  | none => []

namespace Parts

def userText (p : Parts) : Bytes :=
  match p.user with
  | some (user, password) => user ++ set [58] password [] ++ [64]
  | none => []

/-- What follows the host and its port. -/
def tail (p : Parts) : Bytes := set [47] p.path [] ++ set [63] p.query [] ++ set [35] p.fragment []

/-- What lies between the scheme and the path. -/
def authority (p : Parts) : Bytes := p.userText ++ (p.host ++ set [58] p.port [])

def assemble (p : Parts) : Bytes := set [] p.scheme (bytes "://") ++ (p.authority ++ p.tail)

def number (digits : Bytes) : Nat := digits.foldl (fun n c => 10 * n + (c.toNat - 48)) 0

def parts (p : Parts) : List Bytes :=
  p.scheme.toList ++ ((p.user.map Prod.fst).toList ++ ((p.user.bind Prod.snd).toList ++
    p.host :: (p.port.toList ++ (p.path.toList ++ (p.query.toList ++ p.fragment.toList)))))

def delimiters : Bytes := bytes ":/?#@"

structure WellFormed (p : Parts) : Prop where
  nonempty : ∀ x ∈ p.parts, x ≠ []
  free : ∀ x ∈ p.parts, ∀ c ∈ x, c ∉ delimiters
  digits : ∀ d ∈ p.port, ∀ c ∈ d, isDigit c
  port : ∀ d ∈ p.port, 1 ≤ number d ∧ number d ≤ 65535
  length : p.assemble.length ≤ 65535

/-- What the parser is to make of the text. -/
def url (p : Parts) : CUrl where
  url := p.assemble
  scheme := p.scheme.getD []
  username := (p.user.map Prod.fst).getD []
  password := (p.user.bind Prod.snd).getD []
  host := p.host
  port := match p.port with
    | some d => number d
    | none => if p.scheme = some (bytes "https") then 443 else 80
  path := match p.path with
    | some x => 47 :: x
    | none => [47]
  query := p.query.getD []
  fragment := p.fragment.getD []

/-- Each of the last three parts comes with the one before it. -/
def Chained (p : Parts) : Prop :=
  (p.query.isSome → p.path.isSome) ∧ (p.fragment.isSome → p.query.isSome)

end Parts

variable {pre mid rest s : Bytes} {c : UInt8}

theorem mem_set {post : Bytes} {part : Option Bytes} (h : c ∈ set pre part post) :
    c ∈ pre ∨ (∃ x, part = some x ∧ c ∈ x) ∨ c ∈ post := by
  cases part with
  | none => cases h
  | some x =>
    rw [set, List.append_assoc] at h
    cases List.mem_append.mp h with
    | inl h => exact Or.inl h
    | inr h =>
      cases List.mem_append.mp h with
      | inl h => exact Or.inr (Or.inl ⟨x, rfl, h⟩)
      | inr h => exact Or.inr (Or.inr h)

namespace Parts
variable {p : Parts}

theorem mem_parts {x : Bytes} : x ∈ p.parts ↔ p.scheme = some x ∨
    (∃ password, p.user = some (x, password)) ∨ (∃ user, p.user = some (user, some x)) ∨
    x = p.host ∨ p.port = some x ∨ p.path = some x ∨ p.query = some x ∨ p.fragment = some x := by
  rw [parts]
  simp only [List.mem_append, List.mem_cons, Option.mem_toList,
    Option.map_eq_some_iff, Option.bind_eq_some_iff, Prod.exists, exists_eq_right,
    exists_and_right]

theorem WellFormed.not_mem (h : p.WellFormed) {x : Bytes} (hx : x ∈ p.parts)
    (hc : c ∈ delimiters) : c ∉ x := fun hm => h.free x hx c hm hc

/-- A delimiter in a part behind its mark is the mark. -/
theorem WellFormed.mark (h : p.WellFormed) {d : UInt8} {part : Option Bytes}
    (hpart : ∀ x ∈ part, x ∈ p.parts) (hc : c ∈ delimiters) (hm : c ∈ set [d] part []) :
    c = d ∧ part.isSome := by
  cases part with
  | none => cases hm
  | some x =>
    obtain hm | ⟨y, hy, hm⟩ | hm := mem_set hm
    · exact ⟨List.mem_singleton.mp hm, rfl⟩
    · exact absurd hm (h.not_mem (hpart y hy) hc)
    · cases hm

/-- So are those behind the authority. -/
theorem WellFormed.mem_tail (h : p.WellFormed) (hc : c ∈ delimiters) (hm : c ∈ p.tail) :
    c = 47 ∧ p.path.isSome ∨ c = 63 ∧ p.query.isSome ∨ c = 35 ∧ p.fragment.isSome := by
  simp only [tail, List.mem_append] at hm
  obtain (hm | hm) | hm := hm
  · refine Or.inl (h.mark (fun x hx => mem_parts.mpr ?_) hc hm)
    simp [Option.mem_def.mp hx]
  · refine Or.inr (Or.inl (h.mark (fun x hx => mem_parts.mpr ?_) hc hm))
    simp [Option.mem_def.mp hx]
  · refine Or.inr (Or.inr (h.mark (fun x hx => mem_parts.mpr ?_) hc hm))
    simp [Option.mem_def.mp hx]

/-- Every delimiter of the authority is a colon or an at sign. -/
theorem WellFormed.authority (h : p.WellFormed) (hc : c ∈ delimiters) (hcolon : c ≠ 58)
    (hat : c ≠ 64) : c ∉ p.authority := by
  intro hm
  rw [Parts.authority, userText] at hm
  simp only [List.mem_append] at hm
  obtain hm | hm | hm := hm
  · cases hu : p.user with
    | none => rw [hu] at hm; cases hm
    | some u =>
      obtain ⟨user, password⟩ := u
      rw [hu] at hm
      simp only [List.mem_append, List.mem_singleton] at hm
      obtain (hm | hm) | hm := hm
      · exact h.not_mem (mem_parts.mpr (Or.inr (Or.inl ⟨password, hu⟩))) hc hm
      · refine hcolon (h.mark (fun x hx => ?_) hc hm).1
        refine mem_parts.mpr (Or.inr (Or.inr (Or.inl ⟨user, ?_⟩)))
        rw [hu, Option.mem_def.mp hx]
      · exact hat hm
  · exact h.not_mem (mem_parts.mpr (by simp)) hc hm
  · refine hcolon (h.mark (fun x hx => mem_parts.mpr ?_) hc hm).1
    simp [Option.mem_def.mp hx]

theorem WellFormed.host (h : p.WellFormed) (hc : c ∈ delimiters) : c ∉ p.host :=
  h.not_mem (mem_parts.mpr (by simp)) hc

/-- The parts behind a colon do not start with a slash. -/
theorem WellFormed.noSep_set (h : p.WellFormed) {part : Option Bytes}
    (hpart : ∀ x ∈ part, x ∈ p.parts) (hs : NoSep s) : NoSep (set [58] part [] ++ s) := by
  cases part with
  | none => exact hs
  | some x =>
    have hx := hpart x rfl
    have hcolon := h.not_mem hx (c := 58) (by decide)
    have hslash := h.not_mem hx (c := 47) (by decide)
    have hne := h.nonempty x hx
    cases x with
    | nil => exact absurd rfl hne
    | cons d x =>
      simp only [List.mem_cons, not_or] at hslash
      have hbehind : NoSep (d :: x ++ s) := NoSep.append hcolon hs
      rw [set, List.append_nil, List.append_assoc]
      exact ⟨fun _ he => hslash.1 (Option.some.inj he).symm, hbehind⟩

theorem WellFormed.noSep (h : p.WellFormed) : NoSep (p.authority ++ p.tail) := by
  have htail : NoSep p.tail := by
    have hcolon : (58 : UInt8) ∉ p.tail := by
      intro hm
      obtain hm | hm | hm := h.mem_tail (by decide) hm
      · exact absurd hm.1 (by decide)
      · exact absurd hm.1 (by decide)
      · exact absurd hm.1 (by decide)
    rw [← List.append_nil p.tail]
    exact NoSep.append hcolon trivial
  have hhost : NoSep (p.host ++ (set [58] p.port [] ++ p.tail)) := by
    refine NoSep.append (h.host (by decide)) (h.noSep_set (fun x hx => mem_parts.mpr ?_) htail)
    simp [Option.mem_def.mp hx]
  rw [Parts.authority, userText]
  rw [List.append_assoc, List.append_assoc]
  cases hu : p.user with
  | none => exact hhost
  | some u =>
    obtain ⟨user, password⟩ := u
    simp only [List.append_assoc]
    refine NoSep.append (h.not_mem (mem_parts.mpr (Or.inr (Or.inl ⟨password, hu⟩))) (by decide)) ?_
    refine h.noSep_set (fun x hx => mem_parts.mpr (Or.inr (Or.inr (Or.inl ⟨user, ?_⟩)))) ?_
    · rw [hu, Option.mem_def.mp hx]
    · exact NoSep.append (by decide) hhost

theorem WellFormed.parse_scheme (h : p.WellFormed) : parse_scheme p.assemble .zero =
    ({ url_t.zero with URL_SCHEME := span 0 (p.scheme.getD []).length },
      (set [] p.scheme (bytes "://")).length) := by
  rw [Url.parse_scheme, assemble]
  cases hs : p.scheme with
  | none =>
    rw [set, List.nil_append, strstr_miss h.noSep]
    rfl
  | some x =>
    have hcolon := h.not_mem (mem_parts.mpr (Or.inl hs)) (c := 58) (by decide)
    rw [set, List.nil_append, List.append_assoc, strstr_hit hcolon]
    simp only [Option.getD_some, List.length_append]
    rfl

/-- The spans of the user and the password, if there are any. -/
def withUser (p : Parts) (u : url_t) (sp : Nat) : url_t :=
  match p.user with
  | none => u
  | some (user, none) => { u with URL_USERNAME := span sp user.length }
  | some (user, some password) =>
    { u with
      URL_PASSWORD := span (sp + user.length + 1) password.length
      URL_USERNAME := span sp user.length }

theorem WellFormed.parse_user (h : p.WellFormed) {u : url_t} {sp ep : Nat}
    (hs : s = pre ++ (p.authority ++ rest)) (hsp : sp = pre.length)
    (hep : ep = sp + p.authority.length) :
    parse_user s u sp ep = (p.withUser u sp, sp + p.userText.length) := by
  have hport : 64 ∉ p.host ++ set [58] p.port [] := by
    intro hm
    cases List.mem_append.mp hm with
    | inl hm => exact h.host (by decide) hm
    | inr hm =>
      have hmark := h.mark (fun x hx => mem_parts.mpr (by simp [Option.mem_def.mp hx]))
        (by decide) hm
      exact absurd hmark.1 (by decide)
  have hn : ep - sp = p.authority.length := by omega
  rw [Url.parse_user, withUser]
  rw [hn]
  unfold Parts.authority userText at *
  cases hu : p.user with
  | none =>
    simp only [hu, List.nil_append] at hs ⊢
    rw [strnchr_miss hs hsp hport rfl]
    rfl
  | some v =>
    obtain ⟨user, password⟩ := v
    have hmem : user ∈ p.parts := mem_parts.mpr (Or.inr (Or.inl ⟨password, hu⟩))
    simp only [hu] at hs ⊢
    cases password with
    | none =>
      simp only [set, List.append_nil, List.append_assoc, List.singleton_append] at hs ⊢
      rw [strnchr_hit hs hsp (h.not_mem hmem (by decide))
        (by simp only [List.length_append, List.length_cons]; omega)]
      simp only
      rw [strnchr_miss hs hsp (h.not_mem hmem (by decide)) (by omega)]
      simp only [Nat.add_sub_cancel_left, List.length_append, List.length_singleton, Nat.add_assoc]
    | some pswd =>
      have hmem' : pswd ∈ p.parts := mem_parts.mpr (Or.inr (Or.inr (Or.inl ⟨user, hu⟩)))
      have hat : (64 : UInt8) ∉ user ++ 58 :: pswd := by
        simp only [List.mem_append, List.mem_cons, not_or]
        exact ⟨h.not_mem hmem (by decide), by decide, h.not_mem hmem' (by decide)⟩
      have hs' : s = pre ++ ((user ++ 58 :: pswd) ++ 64 ::
          (p.host ++ set [58] p.port [] ++ rest)) := by
        rw [hs]
        simp [set]
      have hs'' : s = pre ++ (user ++ 58 :: (pswd ++ 64 ::
          (p.host ++ set [58] p.port [] ++ rest))) := by
        rw [hs]
        simp [set]
      simp only [set, List.append_nil]
      rw [strnchr_hit hs' hsp hat (by simp only [List.length_append, List.length_cons]; omega)]
      simp only
      rw [strnchr_hit hs'' hsp (h.not_mem hmem (by decide))
        (by simp only [List.length_append, List.length_cons]; omega)]
      simp only [List.length_append, List.length_cons, List.length_nil, Nat.add_sub_cancel_left]
      have hlen : sp + (user.length + (pswd.length + 1)) - (sp + user.length) - 1 = pswd.length := by
        omega
      rw [hlen]
      refine Prod.ext rfl ?_
      simp only
      omega

/-- A digit adds its value to ten times the number before it. -/
theorem nextPort_digit {n : Nat} (hc : isDigit c = true) :
    nextPort (UInt16.ofNat n) c = UInt16.ofNat (10 * n + (c.toNat - 48)) := by
  have hdigit : ∀ k < 10, (UInt8.ofNat (48 + k)).toInt8.toInt16.toUInt16 - 48 =
      UInt16.ofNat k := by decide
  simp only [isDigit, Bool.and_eq_true, decide_eq_true_eq, UInt8.le_iff_toNat_le] at hc
  obtain ⟨hlow, hhigh⟩ := hc
  change 48 ≤ c.toNat at hlow
  change c.toNat ≤ 57 at hhigh
  have h := hdigit (c.toNat - 48) (by omega)
  rw [Nat.add_sub_cancel' hlow, UInt8.ofNat_toNat] at h
  rw [nextPort, h, UInt16.ofNat_add, UInt16.ofNat_mul, UInt16.mul_comm]
  rfl

theorem foldl_nextPort {d : Bytes} {n : Nat} (hd : ∀ c ∈ d, isDigit c) :
    d.foldl nextPort (UInt16.ofNat n) =
      UInt16.ofNat (d.foldl (fun n c => 10 * n + (c.toNat - 48)) n) := by
  induction d generalizing n with
  | nil => rfl
  | cons c d ih =>
    rw [List.foldl_cons, List.foldl_cons, nextPort_digit (hd c List.mem_cons_self)]
    exact ih fun c' hc' => hd c' (List.mem_cons_of_mem c hc')

/-- The spans of the host and the port, and the number of the port. -/
def withHost (p : Parts) (s : Bytes) (u : url_t) (host : Nat) : url_t :=
  match p.port with
  | some d =>
    { u with
      URL_PORT := span (host + p.host.length + 1) d.length
      port := d.foldl nextPort u.port
      URL_HOST := span host p.host.length }
  | none =>
    { u with
      port := if 0 < u.URL_SCHEME.len ∧ (bytes "https://").isPrefixOf s then 443 else 80
      URL_HOST := span host p.host.length }

theorem WellFormed.parse_host (h : p.WellFormed) {u : url_t} {host ep : Nat}
    (hs : s = pre ++ (p.host ++ set [58] p.port [] ++ rest)) (hhost : host = pre.length)
    (hep : ep = host + (p.host ++ set [58] p.port []).length) :
    parse_host s u host ep = p.withHost s u host := by
  rw [Url.parse_host, withHost]
  cases hp : p.port with
  | none =>
    simp only [hp, set, List.append_nil] at hs hep ⊢
    rw [strnchr_miss hs hhost (h.host (by decide)) (by omega)]
    have hn : ep - host = p.host.length := by omega
    simp only [hn]
  | some d =>
    have hs' : s = pre ++ (p.host ++ 58 :: (d ++ rest)) := by
      rw [hs, hp]
      simp [set]
    simp only [hp, set, List.append_nil, List.length_append, List.length_singleton] at hep
    rw [strnchr_hit hs' hhost (h.host (by decide)) (by omega)]
    have hn : ep - (host + p.host.length) - 1 = d.length := by omega
    have hdigits : (s.drop (host + p.host.length + 1)).take d.length = d := by
      have hs'' : s = (pre ++ (p.host ++ [58])) ++ (d ++ rest) := by
        rw [hs']
        simp
      have hlen : host + p.host.length + 1 = (pre ++ (p.host ++ [58])).length := by
        simp [hhost, Nat.add_assoc]
      rw [hs'', hlen, List.drop_left, List.take_left]
    simp only [hn, hdigits, Nat.add_sub_cancel_left]

theorem WellFormed.parse_path (h : p.WellFormed) {u : url_t} {sp : Nat} {x : Bytes}
    (hpath : p.path = some x) (hchained : p.fragment.isSome → p.query.isSome)
    (hs : s = pre ++ p.tail) (hsp : sp = pre.length) :
    parse_path s u sp = { u with
      URL_PATH := span sp (x.length + 1)
      URL_QUERY := match p.query with
        | some q => span (sp + (x.length + 2)) q.length
        | none => u.URL_QUERY
      URL_FRAGMENT := match p.fragment with
        | some f => span (sp + (x.length + (p.query.getD []).length + 3)) f.length
        | none => u.URL_FRAGMENT } := by
  have hx : 63 ∉ (47 :: x : Bytes) := by
    simp only [List.mem_cons, not_or]
    exact ⟨by decide, h.not_mem (mem_parts.mpr (by simp [hpath])) (by decide)⟩
  rw [Url.parse_path]
  cases hq : p.query with
  | none =>
    cases hf : p.fragment with
    | some f => simp [hq, hf] at hchained
    | none =>
      have hs' : s = pre ++ (47 :: x) := by
        rw [hs]
        simp [tail, set, hpath, hq, hf]
      have hn : s.length - sp = x.length + 1 := by
        rw [hs', hsp, List.length_append, Nat.add_sub_cancel_left, List.length_cons]
      rw [strchr_miss hs' hsp hx]
      simp only [hn]
  | some q =>
    have hqm : 35 ∉ q := h.not_mem (mem_parts.mpr (by simp [hq])) (by decide)
    have hpos : sp + (x.length + 2) = (pre ++ ((47 :: x) ++ [63])).length := by
      simp [hsp]
    have hnext : sp + (x.length + 1) + 1 = sp + (x.length + 2) := Nat.add_assoc _ _ _
    cases hf : p.fragment with
    | none =>
      have hs' : s = pre ++ ((47 :: x) ++ 63 :: q) := by
        rw [hs]
        simp [tail, set, hpath, hq, hf]
      have hs'' : s = (pre ++ ((47 :: x) ++ [63])) ++ q := by
        rw [hs']
        simp
      rw [strchr_hit hs' hsp hx]
      simp only [List.length_cons, hnext]
      rw [strchr_miss hs'' hpos hqm]
      have hn : s.length - (sp + (x.length + 2)) = q.length := by
        rw [hs'', hpos, List.length_append, Nat.add_sub_cancel_left]
      simp only [hn, Nat.add_sub_cancel_left]
    | some f =>
      have hs' : s = pre ++ ((47 :: x) ++ 63 :: (q ++ 35 :: f)) := by
        rw [hs]
        simp [tail, set, hpath, hq, hf]
      have hs'' : s = (pre ++ ((47 :: x) ++ [63])) ++ (q ++ 35 :: f) := by
        rw [hs']
        simp
      rw [strchr_hit hs' hsp hx]
      simp only [List.length_cons, hnext]
      rw [strchr_hit hs'' hpos hqm]
      have hoff : sp + (x.length + 2) + q.length + 1 = sp + (x.length + q.length + 3) := by omega
      have hn : s.length - (sp + (x.length + q.length + 3)) = f.length := by
        rw [hs'', hsp]
        simp only [List.length_append, List.length_cons, List.length_nil]
        omega
      simp only [hn, hoff, Nat.add_sub_cancel_left, Option.getD_some]

/-- What the scanner has noted when it comes to the path. -/
structure Front (p : Parts) (u : url_t) : Prop where
  scheme : u.URL_SCHEME.substr p.assemble = p.scheme.getD []
  username : u.URL_USERNAME.substr p.assemble = (p.user.map Prod.fst).getD []
  password : (if 0 < u.URL_USERNAME.len then u.URL_PASSWORD.substr p.assemble else []) =
    (p.user.bind Prod.snd).getD []
  host : u.URL_HOST.substr p.assemble = p.host
  port : (u.port.toNat : Int) = p.url.port
  path : u.URL_PATH = ⟨0, 0⟩
  query : u.URL_QUERY = ⟨0, 0⟩
  fragment : u.URL_FRAGMENT = ⟨0, 0⟩

theorem WellFormed.scheme_port (h : p.WellFormed) (hport : p.port = none) :
    ((if 0 < (span 0 (p.scheme.getD []).length).len ∧ (bytes "https://").isPrefixOf p.assemble
      then 443 else 80 : UInt16).toNat : Int) = p.url.port := by
  have hlen := h.length
  have hsep : bytes "://" = [58, 47, 47] := by decide
  have hhttps : bytes "https://" = bytes "https" ++ [58, 47, 47] := by decide
  rw [url]
  simp only [hport]
  cases hs : p.scheme with
  | none =>
    rw [if_neg fun hc => absurd hc.1 (by decide), if_neg (by simp)]
    rfl
  | some x =>
    have hx : x ∈ p.parts := mem_parts.mpr (Or.inl hs)
    have hcolon := h.not_mem hx (c := 58) (by decide)
    have hall : p.assemble = x ++ 58 :: ([47, 47] ++ (p.authority ++ p.tail)) := by
      simp [assemble, hs, set, hsep]
    have hpos : 0 < (span 0 x.length).len := by
      refine span_len_pos (List.length_pos_iff.mpr (h.nonempty x hx)) ?_
      rw [hall, List.length_append] at hlen
      omega
    -- the text starts with `https://` exactly if that is its scheme
    have hiff : (bytes "https://").isPrefixOf p.assemble = true ↔ x = bytes "https" := by
      rw [List.isPrefixOf_iff_prefix, hall, hhttps]
      constructor
      · intro hcase
        obtain ⟨t, ht⟩ := hcase
        have hcut : bytes "https" ++ 58 :: ([47, 47] ++ t) =
            x ++ 58 :: ([47, 47] ++ (p.authority ++ p.tail)) := by
          rw [← ht]
          simp
        exact (cut_inj (by decide) hcolon hcut).1.symm
      · intro heq
        subst heq
        exact ⟨p.authority ++ p.tail, by simp⟩
    simp only [Option.getD_some, Option.some.injEq, hpos, true_and, hiff]
    split <;> rfl

/-- The spans of the user and the password, in a table in which they were empty. -/
theorem WellFormed.user_spans (h : p.WellFormed) {u : url_t} (huser : u.URL_USERNAME = ⟨0, 0⟩)
    (hpassword : u.URL_PASSWORD = ⟨0, 0⟩) :
    let u' := p.withUser u (set [] p.scheme (bytes "://")).length
    u'.URL_USERNAME.substr p.assemble = (p.user.map Prod.fst).getD [] ∧
    (if 0 < u'.URL_USERNAME.len then u'.URL_PASSWORD.substr p.assemble else []) =
      (p.user.bind Prod.snd).getD [] := by
  have hlen := h.length
  have hsum : p.userText.length ≤ p.assemble.length := by
    rw [assemble, Parts.authority]
    simp only [List.length_append]
    omega
  rw [withUser]
  cases hu : p.user with
  | none =>
    simp only [huser, hpassword, substr_zero]
    exact ⟨rfl, by simp⟩
  | some v =>
    obtain ⟨user, password⟩ := v
    have hmem : user ∈ p.parts := mem_parts.mpr (Or.inr (Or.inl ⟨password, hu⟩))
    have hle : user.length ≤ 65535 := by
      rw [userText] at hsum
      simp only [hu, List.length_append] at hsum
      omega
    have hpos : 0 < (span (set [] p.scheme (bytes "://")).length user.length).len :=
      span_len_pos (List.length_pos_iff.mpr (h.nonempty user hmem)) hle
    have hspan : (span (set [] p.scheme (bytes "://")).length user.length).substr p.assemble =
        user := by
      refine substr_span _ _ (set [58] password [] ++ (64 :: (p.host ++ (set [58] p.port [] ++
        p.tail)))) ?_ rfl rfl hlen
      simp [assemble, Parts.authority, userText, hu]
    cases password with
    | none =>
      simp only [hspan, hpassword, substr_zero]
      exact ⟨rfl, by simp⟩
    | some pswd =>
      have hspan' : (span ((set [] p.scheme (bytes "://")).length + user.length + 1)
          pswd.length).substr p.assemble = pswd := by
        refine substr_span (set [] p.scheme (bytes "://") ++ (user ++ [58])) _
          (64 :: (p.host ++ (set [58] p.port [] ++ p.tail))) ?_ ?_ rfl hlen
        · simp [assemble, Parts.authority, userText, hu, set]
        · simp [Nat.add_assoc]
      simp only [hspan, hspan', if_pos hpos]
      exact ⟨rfl, rfl⟩

theorem withUser_frame (p : Parts) (u : url_t) (sp : Nat) :
    (p.withUser u sp).URL_SCHEME = u.URL_SCHEME ∧
      (p.withUser u sp).URL_PATH = u.URL_PATH ∧ (p.withUser u sp).URL_QUERY = u.URL_QUERY ∧
      (p.withUser u sp).URL_FRAGMENT = u.URL_FRAGMENT ∧ (p.withUser u sp).port = u.port := by
  rw [withUser]
  split
  · exact ⟨rfl, rfl, rfl, rfl, rfl⟩
  · exact ⟨rfl, rfl, rfl, rfl, rfl⟩
  · exact ⟨rfl, rfl, rfl, rfl, rfl⟩

theorem withHost_frame (p : Parts) (s : Bytes) (u : url_t) (host : Nat) :
    (p.withHost s u host).URL_SCHEME = u.URL_SCHEME ∧
      (p.withHost s u host).URL_USERNAME = u.URL_USERNAME ∧
      (p.withHost s u host).URL_PASSWORD = u.URL_PASSWORD ∧
      (p.withHost s u host).URL_HOST = span host p.host.length ∧
      (p.withHost s u host).URL_PATH = u.URL_PATH ∧
      (p.withHost s u host).URL_QUERY = u.URL_QUERY ∧
      (p.withHost s u host).URL_FRAGMENT = u.URL_FRAGMENT := by
  rw [withHost]
  split
  · exact ⟨rfl, rfl, rfl, rfl, rfl, rfl, rfl⟩
  · exact ⟨rfl, rfl, rfl, rfl, rfl, rfl, rfl⟩

/-- The port that is given, or that of the scheme. -/
theorem WellFormed.port_withHost (h : p.WellFormed) {u : url_t} {host : Nat}
    (hu : u.URL_SCHEME = span 0 (p.scheme.getD []).length) (hzero : u.port = 0) :
    ((p.withHost p.assemble u host).port.toNat : Int) = p.url.port := by
  rw [withHost]
  cases hp : p.port with
  | none =>
    simp only [hu]
    exact h.scheme_port hp
  | some d =>
    have hn := h.port d hp
    have hfold : d.foldl nextPort 0 = UInt16.ofNat (number d) :=
      foldl_nextPort (n := 0) (h.digits d hp)
    simp only [url, hp, hzero, hfold, UInt16.toNat_ofNat']
    rw [Nat.mod_eq_of_lt (by omega)]

theorem WellFormed.front (h : p.WellFormed) : p.Front (p.withHost p.assemble
    (p.withUser { url_t.zero with URL_SCHEME := span 0 (p.scheme.getD []).length }
      (set [] p.scheme (bytes "://")).length)
    ((set [] p.scheme (bytes "://")).length + p.userText.length)) := by
  have hlen := h.length
  have hscheme : (span 0 (p.scheme.getD []).length).substr p.assemble = p.scheme.getD [] := by
    unfold assemble at hlen ⊢
    cases hs : p.scheme with
    | none => exact substr_zero _
    | some x =>
      rw [hs] at hlen
      exact substr_span [] x (bytes "://" ++ (p.authority ++ p.tail)) (by simp [set]) rfl rfl hlen
  have hhost : (span ((set [] p.scheme (bytes "://")).length + p.userText.length)
      p.host.length).substr p.assemble = p.host := by
    refine substr_span (set [] p.scheme (bytes "://") ++ p.userText) p.host
      (set [58] p.port [] ++ p.tail) ?_ ?_ rfl hlen
    · simp [assemble, Parts.authority]
    · rw [List.length_append]
  obtain ⟨h1, h2, h3, h4, h5, h6, h7⟩ := withHost_frame p p.assemble
    (p.withUser { url_t.zero with URL_SCHEME := span 0 (p.scheme.getD []).length }
      (set [] p.scheme (bytes "://")).length)
    ((set [] p.scheme (bytes "://")).length + p.userText.length)
  obtain ⟨h1', h5', h6', h7', h8'⟩ := withUser_frame p
    { url_t.zero with URL_SCHEME := span 0 (p.scheme.getD []).length }
    (set [] p.scheme (bytes "://")).length
  have huser := h.user_spans (u := { url_t.zero with
    URL_SCHEME := span 0 (p.scheme.getD []).length }) rfl rfl
  refine ⟨?_, ?_, ?_, ?_, h.port_withHost h1' h8', h5.trans h5', h6.trans h6', h7.trans h7'⟩
  · rw [h1, h1']
    exact hscheme
  · rw [h2]
    exact huser.1
  · rw [h2, h3]
    exact huser.2
  · rw [h4]
    exact hhost

theorem mem_assemble (h : c ∈ p.assemble) : c ∈ delimiters ∨ ∃ x ∈ p.parts, c ∈ x := by
  have hset : ∀ {pre post : Bytes} {part : Option Bytes}, pre ⊆ delimiters → post ⊆ delimiters →
      (∀ x ∈ part, x ∈ p.parts) → c ∈ set pre part post →
      c ∈ delimiters ∨ ∃ x ∈ p.parts, c ∈ x := by
    intro pre post part hpre hpost hpart hm
    obtain hm | ⟨x, hx, hm⟩ | hm := mem_set hm
    · exact Or.inl (hpre hm)
    · exact Or.inr ⟨x, hpart x hx, hm⟩
    · exact Or.inl (hpost hm)
  rw [assemble, Parts.authority, tail] at h
  simp only [List.mem_append] at h
  obtain h | (h | h | h) | (h | h) | h := h
  · exact hset (by simp) (by decide) (fun x hx => mem_parts.mpr (by simp [Option.mem_def.mp hx])) h
  · rw [userText] at h
    cases hu : p.user with
    | none => rw [hu] at h; cases h
    | some v =>
      obtain ⟨user, password⟩ := v
      rw [hu] at h
      simp only [List.mem_append, List.mem_singleton] at h
      obtain (h | h) | h := h
      · exact Or.inr ⟨user, mem_parts.mpr (Or.inr (Or.inl ⟨password, hu⟩)), h⟩
      · refine hset (by decide) (by simp) (fun x hx => ?_) h
        exact mem_parts.mpr (Or.inr (Or.inr (Or.inl ⟨user, by rw [hu, Option.mem_def.mp hx]⟩)))
      · exact Or.inl (h ▸ by decide)
  · exact Or.inr ⟨p.host, mem_parts.mpr (by simp), h⟩
  · exact hset (by decide) (by simp) (fun x hx => mem_parts.mpr (by simp [Option.mem_def.mp hx])) h
  · exact hset (by decide) (by simp) (fun x hx => mem_parts.mpr (by simp [Option.mem_def.mp hx])) h
  · exact hset (by decide) (by simp) (fun x hx => mem_parts.mpr (by simp [Option.mem_def.mp hx])) h
  · exact hset (by decide) (by simp) (fun x hx => mem_parts.mpr (by simp [Option.mem_def.mp hx])) h

theorem cStr_assemble (hzero : ∀ x ∈ p.parts, 0 ∉ x) : cStr p.assemble = p.assemble := by
  refine cStr_eq fun hm => ?_
  cases mem_assemble hm with
  | inl hm => exact absurd hm (by decide)
  | inr hm =>
    obtain ⟨x, hx, hm⟩ := hm
    exact hzero x hx hm

/-- What the scanner makes of a text that ends with the host and its port. -/
theorem WellFormed.parse_url_none (h : p.WellFormed) (htail : p.tail = []) :
    ∃ u, p.Front u ∧ parse_url p.assemble = (0, u) := by
  have hs : p.assemble = set [] p.scheme (bytes "://") ++ (p.authority ++ []) := by
    simp [assemble, htail]
  have hs' : p.assemble = set [] p.scheme (bytes "://") ++ p.authority := by
    simp [assemble, htail]
  have hhost : p.assemble = (set [] p.scheme (bytes "://") ++ p.userText) ++
      (p.host ++ set [58] p.port [] ++ []) := by
    simp [assemble, htail, Parts.authority]
  have hend : p.assemble.length = (set [] p.scheme (bytes "://")).length + p.authority.length := by
    rw [hs', List.length_append]
  refine ⟨_, h.front, ?_⟩
  rw [parse_url]
  rw [if_neg (Nat.not_lt.mpr h.length), h.parse_scheme]
  simp only
  rw [strchr_miss hs' rfl (h.authority (by decide) (by decide) (by decide))]
  simp only
  rw [h.parse_user hs rfl hend]
  simp only
  rw [h.parse_host hhost (by rw [List.length_append]) (by
    rw [hend, Parts.authority, List.length_append, Nat.add_assoc])]

/-- With a path it goes on behind them. -/
theorem WellFormed.parse_url_some (h : p.WellFormed) {x : Bytes} (hpath : p.path = some x) :
    ∃ u, p.Front u ∧ parse_url p.assemble = (0, Url.parse_path p.assemble u
      ((set [] p.scheme (bytes "://")).length + p.authority.length)) := by
  have hs : p.assemble = set [] p.scheme (bytes "://") ++ (p.authority ++ p.tail) := rfl
  have hslash : p.assemble = set [] p.scheme (bytes "://") ++ (p.authority ++ 47 ::
      (x ++ (set [63] p.query [] ++ set [35] p.fragment []))) := by
    simp [assemble, tail, hpath, set]
  have hhost : p.assemble = (set [] p.scheme (bytes "://") ++ p.userText) ++
      (p.host ++ set [58] p.port [] ++ p.tail) := by
    simp [assemble, Parts.authority]
  refine ⟨_, h.front, ?_⟩
  rw [parse_url]
  rw [if_neg (Nat.not_lt.mpr h.length), h.parse_scheme]
  simp only
  rw [strchr_hit hslash rfl (h.authority (by decide) (by decide) (by decide))]
  simp only
  rw [h.parse_user hs rfl rfl]
  simp only
  rw [h.parse_host hhost (by rw [List.length_append]) (by
    simp only [Parts.authority, List.length_append]
    omega)]

/-- If no part is missing before another the parser finds them all. -/
theorem WellFormed.parse_chained (h : p.WellFormed) (hzero : ∀ x ∈ p.parts, 0 ∉ x)
    (hchained : p.Chained) : parse p.assemble = (true, p.url) := by
  have hlen := h.length
  rw [parse]
  rw [cStr_assemble hzero]
  cases hpath : p.path with
  | none =>
    have hquery : p.query = none := by
      cases hq : p.query with
      | none => rfl
      | some q => simpa [hq, hpath] using hchained.1
    have hfragment : p.fragment = none := by
      cases hf : p.fragment with
      | none => rfl
      | some f => simpa [hf, hquery] using hchained.2
    obtain ⟨u, hu, hparse⟩ := h.parse_url_none (by simp [tail, set, hpath, hquery, hfragment])
    rw [hparse]
    have hport := hu.port
    simp only [ne_eq, not_true_eq_false, if_false, hu.scheme, hu.username, hu.password, hu.host,
      hport, hu.path, hu.query, hu.fragment, substr_zero]
    rw [url]
    simp only [hpath, hquery, hfragment]
    rfl
  | some x =>
    obtain ⟨u, hu, hparse⟩ := h.parse_url_some hpath
    have hs : p.assemble = (set [] p.scheme (bytes "://") ++ p.authority) ++ p.tail :=
      (List.append_assoc _ _ _).symm
    have hsp : (set [] p.scheme (bytes "://")).length + p.authority.length =
        (set [] p.scheme (bytes "://") ++ p.authority).length := by rw [List.length_append]
    rw [hparse, h.parse_path hpath hchained.2 hs hsp]
    have hport := hu.port
    have hpathSpan : (span ((set [] p.scheme (bytes "://")).length + p.authority.length)
        (x.length + 1)).substr p.assemble = 47 :: x := by
      refine substr_span _ (47 :: x) (set [63] p.query [] ++ set [35] p.fragment []) ?_ hsp rfl hlen
      simp [assemble, tail, set, hpath]
    have hpos : 0 < (span ((set [] p.scheme (bytes "://")).length + p.authority.length)
        (x.length + 1)).len := by
      refine span_len_pos (Nat.succ_pos _) ?_
      have := congrArg List.length hs
      simp only [tail, set, hpath, List.length_append, List.length_cons] at this
      omega
    have hquerySpan : (match p.query with
        | some q => span ((set [] p.scheme (bytes "://")).length + p.authority.length +
          (x.length + 2)) q.length
        | none => u.URL_QUERY).substr p.assemble = p.query.getD [] := by
      cases hq : p.query with
      | none => simp only [hu.query, substr_zero, Option.getD_none]
      | some q =>
        refine substr_span ((set [] p.scheme (bytes "://") ++ p.authority) ++ (47 :: x ++ [63])) q
          (set [35] p.fragment []) ?_ ?_ rfl hlen
        · simp [assemble, tail, set, hpath, hq]
        · simp
          omega
    have hfragmentSpan : (match p.fragment with
        | some f => span ((set [] p.scheme (bytes "://")).length + p.authority.length +
          (x.length + (p.query.getD []).length + 3)) f.length
        | none => u.URL_FRAGMENT).substr p.assemble = p.fragment.getD [] := by
      cases hf : p.fragment with
      | none => simp only [hu.fragment, substr_zero, Option.getD_none]
      | some f =>
        obtain ⟨q, hq⟩ := Option.isSome_iff_exists.mp (hchained.2 (by rw [hf]; rfl))
        refine substr_span ((set [] p.scheme (bytes "://") ++ p.authority) ++
          (47 :: x ++ 63 :: (q ++ [35]))) f [] ?_ ?_ rfl hlen
        · simp [assemble, tail, set, hpath, hq, hf]
        · simp [hq]
          omega
    simp only [ne_eq, not_true_eq_false, if_false, hu.scheme, hu.username, hu.password, hu.host,
      hport, hpathSpan, if_pos hpos, hquerySpan, hfragmentSpan]
    rw [url]
    simp only [hpath]

theorem zero_of_parse (hdigits : ∀ d ∈ p.port, ∀ c ∈ d, isDigit c)
    (hparse : parse p.assemble = (true, p.url)) : ∀ x ∈ p.parts, 0 ∉ x := by
  have hw := url_t.Within.parse_url (cStr p.assemble)
  rw [parse] at hparse
  simp only at hparse
  split at hparse
  · cases congrArg Prod.fst hparse
  · have hcurl := congrArg Prod.snd hparse
    simp only [url, CUrl.mk.injEq] at hcurl
    obtain ⟨-, hscheme, husername, hpassword, hhost, -, hpath, hquery, hfragment⟩ := hcurl
    have hin : ∀ {f : Span} {y : Bytes}, f.Within (cStr p.assemble).length →
        f.substr p.assemble = y → 0 ∉ y := fun hf he => he ▸ hf.zero_not_mem
    intro x hx
    obtain hx | ⟨w, hx⟩ | ⟨v, hx⟩ | hx | hx | hx | hx | hx := mem_parts.mp hx
    · rw [hx] at hscheme
      exact hin hw.scheme hscheme
    · rw [hx] at husername
      exact hin hw.username husername
    · rw [hx] at hpassword
      simp only [Option.bind_some, Option.getD_some] at hpassword
      split at hpassword
      · exact hin hw.password hpassword
      · exact hpassword ▸ List.not_mem_nil
    · rw [hx, ← hhost]
      exact hw.host.zero_not_mem
    · exact fun hm => absurd (hdigits x hx 0 hm) (by decide)
    · rw [hx] at hpath
      simp only at hpath
      split at hpath
      · exact fun hm => hin hw.path hpath (List.mem_cons_of_mem 47 hm)
      · rw [← (List.cons.inj hpath).2]
        exact List.not_mem_nil
    · rw [hx] at hquery
      exact hin hw.query hquery
    · rw [hx] at hfragment
      exact hin hw.fragment hfragment

/-- Without a slash nothing is found behind the host. -/
theorem WellFormed.parse_url_slash (h : p.WellFormed) (hslash : 47 ∉ p.authority ++ p.tail) :
    (parse_url p.assemble).2.URL_QUERY = ⟨0, 0⟩ ∧
      (parse_url p.assemble).2.URL_FRAGMENT = ⟨0, 0⟩ := by
  have hs : p.assemble = set [] p.scheme (bytes "://") ++ (p.authority ++ p.tail) := rfl
  rw [parse_url]
  rw [if_neg (Nat.not_lt.mpr h.length), h.parse_scheme]
  simp only
  rw [strchr_miss hs rfl hslash]
  simp only
  obtain ⟨-, -, -, -, hq, hf⟩ := parse_host_frame p.assemble
    (Url.parse_user p.assemble { url_t.zero with URL_SCHEME := span 0 (p.scheme.getD []).length }
      (set [] p.scheme (bytes "://")).length p.assemble.length).1
    (Url.parse_user p.assemble { url_t.zero with URL_SCHEME := span 0 (p.scheme.getD []).length }
      (set [] p.scheme (bytes "://")).length p.assemble.length).2 p.assemble.length
  obtain ⟨-, -, hq', hf', -⟩ := parse_user_frame p.assemble
    { url_t.zero with URL_SCHEME := span 0 (p.scheme.getD []).length }
    (set [] p.scheme (bytes "://")).length p.assemble.length
  exact ⟨hq.trans hq', hf.trans hf'⟩

/-- Without a question mark no fragment is found. -/
theorem WellFormed.parse_url_mark (h : p.WellFormed) {x : Bytes} (hpath : p.path = some x)
    (hmark : 63 ∉ p.tail) : (parse_url p.assemble).2.URL_FRAGMENT = ⟨0, 0⟩ := by
  have hs : p.assemble = (set [] p.scheme (bytes "://") ++ p.authority) ++ p.tail :=
    (List.append_assoc _ _ _).symm
  obtain ⟨u, hu, hurl⟩ := h.parse_url_some hpath
  rw [hurl]
  rw [Url.parse_path]
  rw [strchr_miss hs (by rw [List.length_append]) hmark]
  exact hu.fragment

/-- The last two components are the texts of their spans. -/
theorem spans_of_parse (hzero : ∀ x ∈ p.parts, 0 ∉ x)
    (hparse : parse p.assemble = (true, p.url)) :
    (parse_url p.assemble).2.URL_QUERY.substr p.assemble = p.query.getD [] ∧
      (parse_url p.assemble).2.URL_FRAGMENT.substr p.assemble = p.fragment.getD [] := by
  rw [parse] at hparse
  rw [cStr_assemble hzero] at hparse
  simp only at hparse
  split at hparse
  · cases congrArg Prod.fst hparse
  · have hcurl := congrArg Prod.snd hparse
    simp only [url, CUrl.mk.injEq] at hcurl
    exact ⟨hcurl.2.2.2.2.2.2.2.1, hcurl.2.2.2.2.2.2.2.2⟩

/-- A part that is read as empty is missing. -/
theorem WellFormed.missing (h : p.WellFormed) {part : Option Bytes}
    (hpart : ∀ x ∈ part, x ∈ p.parts) (hnil : [] = part.getD []) : part.isSome = false := by
  cases part with
  | none => rfl
  | some x => exact absurd hnil.symm (h.nonempty x (hpart x rfl))

/-- A query that no path precedes, and a fragment that no query precedes, are not found. -/
theorem chained_of_parse (h : p.WellFormed) (hzero : ∀ x ∈ p.parts, 0 ∉ x)
    (hparse : parse p.assemble = (true, p.url)) : p.Chained := by
  obtain ⟨hqspan, hfspan⟩ := spans_of_parse hzero hparse
  have hquery : ∀ x ∈ p.query, x ∈ p.parts := fun x hx =>
    mem_parts.mpr (by simp [Option.mem_def.mp hx])
  have hfragment : ∀ x ∈ p.fragment, x ∈ p.parts := fun x hx =>
    mem_parts.mpr (by simp [Option.mem_def.mp hx])
  cases hpath : p.path with
  | none =>
    have hslash : 47 ∉ p.authority ++ p.tail := by
      intro hm
      cases List.mem_append.mp hm with
      | inl hm => exact h.authority (by decide) (by decide) (by decide) hm
      | inr hm => simpa [hpath] using h.mem_tail (by decide) hm
    obtain ⟨hq, hf⟩ := h.parse_url_slash hslash
    rw [hq, substr_zero] at hqspan
    rw [hf, substr_zero] at hfspan
    exact ⟨by simp [h.missing hquery hqspan], by simp [h.missing hfragment hfspan]⟩
  | some x =>
    refine ⟨fun _ => by rw [hpath]; rfl, ?_⟩
    cases hq : p.query with
    | some q => exact fun _ => rfl
    | none =>
      have hmark : 63 ∉ p.tail := by
        intro hm
        simpa [hq] using h.mem_tail (by decide) hm
      rw [h.parse_url_mark hpath hmark, substr_zero] at hfspan
      simp [h.missing hfragment hfspan]

/-- The parser finds the components exactly if none has a zero byte, a query comes with a path
and a fragment with a query. -/
theorem parse_assemble_iff (h : p.WellFormed) : parse p.assemble = (true, p.url) ↔
    (∀ x ∈ p.parts, 0 ∉ x) ∧ (p.query.isSome → p.path.isSome) ∧
      (p.fragment.isSome → p.query.isSome) := by
  constructor
  · intro hparse
    have hzero := zero_of_parse h.digits hparse
    exact ⟨hzero, chained_of_parse h hzero hparse⟩
  · exact fun hcond => h.parse_chained hcond.1 hcond.2

theorem free_of_all (h : p.parts.all (fun x => x.all fun c => !delimiters.contains c) = true) :
    ∀ x ∈ p.parts, ∀ c ∈ x, c ∉ delimiters := by
  simpa using h

def whole : Parts :=
  ⟨some (bytes "https"), some (bytes "u", some (bytes "p")), bytes "h", some (bytes "8080"),
    some (bytes "x"), some (bytes "q"), some (bytes "f")⟩

theorem parse_assemble_whole : parse whole.assemble = (true, whole.url) := by
  have h : whole.WellFormed := by
    refine ⟨by decide, free_of_all (by decide), ?_, ?_, by decide⟩
    · intro d heq
      obtain ⟨rfl⟩ := heq
      exact List.all_eq_true.mp (by decide)
    · intro d heq
      obtain ⟨rfl⟩ := heq
      decide
  exact (parse_assemble_iff h).mpr ⟨by decide, by decide, by decide⟩

/-- A host with a query and no path, `h?q`. -/
def hostQuery : Parts := ⟨none, none, bytes "h", none, none, some (bytes "q"), none⟩

theorem query_in_host : hostQuery.WellFormed ∧ hostQuery.assemble = bytes "h?q" ∧
    parse hostQuery.assemble ≠ (true, hostQuery.url) ∧
    (parse hostQuery.assemble).2.host = bytes "h?q" ∧ (parse hostQuery.assemble).2.query = [] := by
  refine ⟨⟨by decide, free_of_all (by decide), ?_, ?_, by decide⟩, by decide, by decide, by decide,
    by decide⟩
  · intro d hd
    cases hd
  · intro d hd
    cases hd

end Parts
end CppPrivate.Url
