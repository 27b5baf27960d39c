import CppPrivate.Http.Router
import Mathlib.Data.List.Induction

/-! What a route stands for: the paths that its pattern matches, and the parameters they bind.
The search for a node finds the first route that matches. -/
namespace CppPrivate.Http
open Url (cStr)

/-- The name in a segment that stands for a parameter, behind its slash. -/
inductive Segment : Bytes → Bytes → Prop
  | colon (name : Bytes) : Segment (58 :: name) name
  | braces (name : Bytes) : Segment (123 :: (name ++ [125])) name

/-- What is taken for a parameter: a brace that opens a segment need not be closed. -/
inductive Opened : Bytes → Bytes → Prop
  | segment {segment name : Bytes} : Segment segment name → Opened segment name
  | unclosed {name : Bytes} : name.getLast? ≠ some 125 → Opened (123 :: name) name

/-- The pattern matches the path and binds the parameters, which are the segments in `Seg`. -/
inductive Matches (Seg : Bytes → Bytes → Prop) : Bytes → Bytes → Params → Prop
  | nil : Matches Seg [] [] []
  | wildcard {suffix path : Bytes} : path ≠ [] → suffix <:+ path →
      Matches Seg (42 :: suffix) path []
  | param {segment name rest value path : Bytes} {ps : Params} : Seg segment name →
      47 ∉ segment → 47 ∉ value → rest = [] ∨ rest.head? = some 47 → Matches Seg rest path ps →
      Matches Seg (47 :: (segment ++ rest)) (47 :: (value ++ path)) (⟨name, value⟩ :: ps)
  | literal {c : UInt8} {rest path : Bytes} {ps : Params} : c ≠ 42 →
      ¬ (c = 47 ∧ ∃ name, Seg (rest.takeWhile (· ≠ 47)) name) → Matches Seg rest path ps →
      Matches Seg (c :: rest) (c :: path) ps

theorem endsAlike_iff {n : Nat} {s t : Bytes} (hs : n ≤ s.length) (ht : n ≤ t.length) :
    endsAlike n s t = true ↔ s.take n = t.take n := by
  induction n generalizing s t with
  | zero => simp [endsAlike]
  | succ n ih =>
    cases s with
    | nil => cases hs
    | cons a s =>
      cases t with
      | nil => cases ht
      | cons b t =>
        simp only [List.length_cons, Nat.add_le_add_iff_right] at hs ht
        simp [endsAlike, ih hs ht]

/-- Below `2^31` bytes the comparison from the end is the test for a suffix. -/
theorem strendswith_iff {str ending : Bytes} (hs : str.length < 2 ^ 31)
    (he : ending.length < 2 ^ 31) : Strendswith str ending = true ↔ ending <:+ str := by
  simp only [Strendswith, cInt_of_lt hs, cInt_of_lt he, Int.ofNat_lt, Int.toNat_natCast]
  split
  · rename_i hlt
    simp only [Bool.false_eq_true, false_iff]
    intro h
    have := h.length_le
    omega
  · rename_i hle
    have hlen : ending.length ≤ str.reverse.length := by
      rw [List.length_reverse]
      omega
    have hself : ending.length ≤ ending.reverse.length := Nat.le_of_eq List.length_reverse.symm
    rw [endsAlike_iff hlen hself, ← List.reverse_prefix, List.prefix_iff_eq_take,
      List.length_reverse, List.take_of_length_le (l := ending.reverse) (by simp)]
    exact eq_comm

/-- The name of a parameter in a segment that opens with `opening`. -/
def segmentName (opening : UInt8) (ks : Bytes) : Bytes :=
  if opening = 123 ∧ ks.getLast? = some 125 then ks.dropLast else ks

theorem paramKey_eq {opening : UInt8} {ks : Bytes} (h : ks.length < 2 ^ 31) :
    paramKey opening ks = some (segmentName opening ks) := by
  have hlast : (opening = 123 ∧ (opening :: ks).getLast? = some 125) ↔
      (opening = 123 ∧ ks.getLast? = some 125) := by
    cases ks with
    | nil =>
      constructor
      · intro h
        obtain ⟨rfl, h⟩ := h
        cases h
      · intro h
        cases h.2
    | cons c ks => rw [List.getLast?_cons_cons]
  simp only [paramKey, segmentName, hlast, cInt_of_lt h]
  split
  · rename_i hclosed
    have hne : ks ≠ [] := by
      intro heq
      subst heq
      cases hclosed.2
    have hpos := List.length_pos_iff.mpr hne
    have hlen : cInt ((ks.length : Int) - 1) = (ks.length - 1 : Nat) := by
      rw [← cInt_of_lt (by omega : ks.length - 1 < 2 ^ 31)]
      congr 1
      omega
    rw [hlen, if_neg (by omega), Int.toNat_natCast, List.dropLast_eq_take]
  · rw [if_neg (by omega), Int.toNat_natCast, List.take_length]

theorem segment_name {opening : UInt8} (h : opening = 58 ∨ opening = 123) (ks : Bytes) :
    Opened (opening :: ks) (segmentName opening ks) := by
  cases h with
  | inl h =>
    subst h
    exact .segment (.colon ks)
  | inr h =>
    subst h
    by_cases hlast : ks.getLast? = some 125
    · have hks : ks = ks.dropLast ++ [125] := by
        obtain ⟨front, rfl⟩ := List.getLast?_eq_some_iff.mp hlast
        rw [List.dropLast_concat]
      have hname : segmentName 123 ks = ks.dropLast := if_pos ⟨rfl, hlast⟩
      rw [hname]
      nth_rewrite 1 [hks]
      exact .segment (.braces ks.dropLast)
    · have hname : segmentName 123 ks = ks := if_neg fun h => hlast h.2
      rw [hname]
      exact .unclosed hlast

theorem Opened.eq {segment name : Bytes} (h : Opened segment name) : ∃ opening ks,
    segment = opening :: ks ∧ (opening = 58 ∨ opening = 123) ∧ name = segmentName opening ks := by
  cases h with
  | segment h =>
    cases h with
    | colon name => exact ⟨58, name, rfl, Or.inl rfl, rfl⟩
    | braces name => exact ⟨123, name ++ [125], rfl, Or.inr rfl, by simp [segmentName]⟩
  | unclosed hname => exact ⟨123, name, rfl, Or.inr rfl, by simp [segmentName, hname]⟩

/-- The first character of a segment decides whether it is taken for a parameter. -/
theorem opened_iff {rest : Bytes} : (∃ name, Opened (rest.takeWhile (· ≠ 47)) name) ↔
    rest.head? = some 58 ∨ rest.head? = some 123 := by
  cases rest with
  | nil =>
    simp only [List.takeWhile_nil, List.head?_nil, reduceCtorEq, or_self, iff_false]
    intro hsome
    obtain ⟨name, h⟩ := hsome
    obtain ⟨opening, ks, hcons, -⟩ := h.eq
    cases hcons
  | cons c rest =>
    simp only [List.head?_cons, Option.some.injEq]
    constructor
    · intro hsome
      obtain ⟨name, h⟩ := hsome
      obtain ⟨opening, ks, hcons, hopening, -⟩ := h.eq
      rw [List.takeWhile_cons] at hcons
      split at hcons
      · obtain ⟨rfl, -⟩ := List.cons.inj hcons
        exact hopening
      · cases hcons
    · intro hc
      have hne : decide (c ≠ 47) = true := by
        obtain rfl | rfl := hc <;> rfl
      rw [List.takeWhile_cons, if_pos hne]
      exact ⟨_, segment_name hc _⟩

/-- What matches a pattern that has ended, or goes on with a slash, has ended or goes on with a
slash. -/
theorem Matches.head {Seg : Bytes → Bytes → Prop} {rest path : Bytes} {ps : Params}
    (h : Matches Seg rest path ps)
    (hrest : rest = [] ∨ rest.head? = some 47) : path = [] ∨ path.head? = some 47 := by
  cases h with
  | nil => exact Or.inl rfl
  | wildcard hne hsuffix => simp at hrest
  | param => exact Or.inr rfl
  | literal hc hcolon h =>
    cases hrest with
    | inl hrest => cases hrest
    | inr hrest => exact Or.inr hrest

/-- A text is cut in one way into a part without slashes and a rest that starts with one. -/
theorem cut_at_slash {s rest : Bytes} (hs : 47 ∉ s) (hrest : rest = [] ∨ rest.head? = some 47) :
    (s ++ rest).takeWhile (· ≠ 47) = s ∧ (s ++ rest).dropWhile (· ≠ 47) = rest := by
  have hall : ∀ c ∈ s, decide (c ≠ 47) = true := by
    intro c hc
    exact decide_eq_true fun h => hs (h ▸ hc)
  rw [List.takeWhile_append_of_pos hall, List.dropWhile_append_of_pos hall]
  cases rest with
  | nil => simp
  | cons c rest =>
    have hc : c = 47 := by simpa using hrest
    simp [hc]

theorem slash_cut (s : Bytes) : 47 ∉ s.takeWhile (· ≠ 47) ∧
    (s.dropWhile (· ≠ 47) = [] ∨ (s.dropWhile (· ≠ 47)).head? = some 47) := by
  induction s with
  | nil => simp
  | cons c s ih =>
    by_cases hc : c = 47
    · simp [hc]
    · simpa [hc, Ne.symm hc] using ih

/-- Only the first case of a pattern that applies is open to a match. -/
theorem matches_cons {k v : UInt8} {kp vp : Bytes} {ps : Params} :
    Matches Opened (k :: kp) (v :: vp) ps ↔
      if k = 42 then kp <:+ v :: vp ∧ ps = []
      else if k ≠ v then False
      else if k = 47 ∧ (kp.head? = some 58 ∨ kp.head? = some 123) then
        ∃ qs, ps = ⟨segmentName (kp.headD 0) (kp.tail.takeWhile (· ≠ 47)),
            vp.takeWhile (· ≠ 47)⟩ :: qs ∧
          Matches Opened (kp.tail.dropWhile (· ≠ 47)) (vp.dropWhile (· ≠ 47)) qs
      else Matches Opened kp vp ps := by
  constructor
  · intro h
    cases h with
    | wildcard hne hsuffix =>
      rw [if_pos rfl]
      exact ⟨hsuffix, rfl⟩
    | @param segment name rest value path ps hseg hslash hvalue hrest h =>
      obtain ⟨opening, ks, rfl, hopening, rfl⟩ := hseg.eq
      obtain ⟨hks, hkrest⟩ := cut_at_slash (fun hmem => hslash (List.mem_cons_of_mem _ hmem)) hrest
      obtain ⟨hv, hpath⟩ := cut_at_slash hvalue (h.head hrest)
      rw [if_neg (by decide), if_neg (by decide), if_pos ⟨rfl, by simpa using hopening⟩]
      simp only [List.cons_append, List.headD_cons, List.tail_cons, hks, hkrest, hv, hpath]
      exact ⟨ps, rfl, h⟩
    | literal hc hcolon h =>
      rw [opened_iff] at hcolon
      rw [if_neg hc, if_neg (by simp), if_neg hcolon]
      exact h
  · intro h
    split at h
    · rename_i hk
      obtain ⟨hsuffix, rfl⟩ := h
      rw [hk]
      exact .wildcard (List.cons_ne_nil _ _) hsuffix
    · rename_i hk
      split at h
      · cases h
      · rename_i hv
        obtain rfl : k = v := not_not.mp hv
        split at h
        · rename_i hparam
          obtain ⟨rfl, hopening⟩ := hparam
          obtain ⟨qs, rfl, h⟩ := h
          cases kp with
          | nil => simp at hopening
          | cons opening ks =>
            simp only [List.head?_cons, Option.some.injEq] at hopening
            simp only [List.headD_cons, List.tail_cons] at h ⊢
            obtain ⟨hname, hrest⟩ := slash_cut ks
            have hslash : 47 ∉ opening :: ks.takeWhile (· ≠ 47) := by
              intro hmem
              cases List.mem_cons.mp hmem with
              | inl heq => subst heq; simp at hopening
              | inr hmem => exact hname hmem
            have hm := Matches.param (segment_name hopening _) hslash (slash_cut vp).1 hrest h
            rw [List.cons_append, List.takeWhile_append_dropWhile,
              List.takeWhile_append_dropWhile] at hm
            exact hm
        · rename_i hcolon
          rw [← opened_iff] at hcolon
          exact .literal hk hcolon h

/-- Where the pattern or the path has ended, only two ends match. -/
theorem matches_end {kp vp : Bytes} {ps : Params} (hend : kp = [] ∨ vp = []) :
    Matches Opened kp vp ps ↔ kp = [] ∧ vp = [] ∧ ps = [] := by
  constructor
  · intro h
    cases h with
    | nil => exact ⟨rfl, rfl, rfl⟩
    | wildcard hne => exact absurd (hend.resolve_left (List.cons_ne_nil _ _)) hne
    | param => simp at hend
    | literal => simp at hend
  · intro h
    obtain ⟨rfl, rfl, rfl⟩ := h
    exact .nil

/-- The scan ends with the match of the pattern, if there is one. -/
structure Answers (kp vp : Bytes) (vecParams : Params) (r : Scan) : Prop where
  found : r.matched = true →
    ∃ ps, r.vecParams = vecParams ++ ps ∧ ∀ qs, Matches Opened kp vp qs ↔ qs = ps
  none : r.matched = false → ∀ ps, ¬ Matches Opened kp vp ps

/-- A star ends the scan: what is left of the path has to end in what is left of the pattern. -/
theorem answers_wildcard (vecParams : Params) {kp vp : Bytes} {v : UInt8}
    (hk : kp.length < 2 ^ 31) (hv : (v :: vp).length < 2 ^ 31) :
    Answers (42 :: kp) (v :: vp) vecParams
      ⟨Strendswith (v :: vp) kp, 42 :: kp, v :: vp, vecParams⟩ := by
  refine ⟨?_, ?_⟩
  · intro h
    have hsuffix : Strendswith (v :: vp) kp = true := by simpa [Scan.matched] using h
    rw [strendswith_iff hv hk] at hsuffix
    refine ⟨[], (List.append_nil _).symm, ?_⟩
    intro qs
    rw [matches_cons, if_pos rfl]
    exact and_iff_right hsuffix
  · intro h ps hm
    have hsuffix : ¬ Strendswith (v :: vp) kp = true := by simpa [Scan.matched] using h
    rw [matches_cons, if_pos rfl] at hm
    exact hsuffix ((strendswith_iff hv hk).mpr hm.1)

/-- Two bytes that differ end the scan without a match. -/
theorem answers_differ (vecParams : Params) {k v : UInt8} {kp vp : Bytes} (hstar : k ≠ 42)
    (hne : k ≠ v) : Answers (k :: kp) (v :: vp) vecParams
      ⟨false, k :: kp, v :: vp, vecParams⟩ := by
  refine ⟨?_, ?_⟩
  · intro h
    cases h
  · intro _ ps hm
    rw [matches_cons, if_neg hstar, if_pos hne] at hm
    exact hm

/-- A segment that is a parameter adds the part of the path up to the next slash. -/
theorem answers_param {vecParams : Params} {k v : UInt8} {kp vp : Bytes} {r : Scan}
    (hstar : k ≠ 42) (hne : ¬ k ≠ v)
    (hparam : k = 47 ∧ (kp.head? = some 58 ∨ kp.head? = some 123))
    (h : Answers (kp.tail.dropWhile (· ≠ 47)) (vp.dropWhile (· ≠ 47))
      (vecParams ++ [⟨segmentName (kp.headD 0) (kp.tail.takeWhile (· ≠ 47)),
        vp.takeWhile (· ≠ 47)⟩]) r) : Answers (k :: kp) (v :: vp) vecParams r := by
  refine ⟨?_, ?_⟩
  · intro hr
    obtain ⟨ps, hps, hm⟩ := h.found hr
    let p : Param :=
      ⟨segmentName (kp.headD 0) (kp.tail.takeWhile (· ≠ 47)), vp.takeWhile (· ≠ 47)⟩
    refine ⟨p :: ps, ?_, ?_⟩
    · rw [hps, List.append_assoc]
      rfl
    · intro qs
      rw [matches_cons, if_neg hstar, if_neg hne, if_pos hparam]
      constructor
      · intro h
        obtain ⟨qs, rfl, h⟩ := h
        rw [(hm qs).mp h]
      · intro h
        exact ⟨ps, h, (hm ps).mpr rfl⟩
  · intro hr ps hm
    rw [matches_cons, if_neg hstar, if_neg hne, if_pos hparam] at hm
    obtain ⟨qs, -, hm⟩ := hm
    exact h.none hr qs hm

theorem answers_literal {vecParams : Params} {k v : UInt8} {kp vp : Bytes} {r : Scan}
    (hstar : k ≠ 42) (hne : ¬ k ≠ v)
    (hparam : ¬ (k = 47 ∧ (kp.head? = some 58 ∨ kp.head? = some 123)))
    (h : Answers kp vp vecParams r) : Answers (k :: kp) (v :: vp) vecParams r := by
  have hmatches : ∀ qs, Matches Opened (k :: kp) (v :: vp) qs ↔ Matches Opened kp vp qs := by
    intro qs
    rw [matches_cons, if_neg hstar, if_neg hne, if_neg hparam]
  refine ⟨?_, ?_⟩
  · intro hr
    obtain ⟨ps, hps, hm⟩ := h.found hr
    exact ⟨ps, hps, fun qs => (hmatches qs).trans (hm qs)⟩
  · intro hr ps hm
    exact h.none hr ps ((hmatches ps).mp hm)

theorem answers_end (vecParams : Params) {kp vp : Bytes} (hend : kp = [] ∨ vp = []) :
    Answers kp vp vecParams ⟨false, kp, vp, vecParams⟩ := by
  refine ⟨?_, ?_⟩
  · intro h
    have hboth : kp = [] ∧ vp = [] := by simpa [Scan.matched] using h
    refine ⟨[], (List.append_nil _).symm, ?_⟩
    intro qs
    rw [matches_end hend]
    simp [hboth]
  · intro h ps hm
    obtain ⟨rfl, rfl, -⟩ := (matches_end hend).mp hm
    cases h

/-- The scan of a route finds the match of its pattern, if there is one. -/
theorem scan_spec {kp vp : Bytes} (vecParams : Params) (hk : kp.length < 2 ^ 31)
    (hv : vp.length < 2 ^ 31) : ∃ r, scan kp vp vecParams = some r ∧
      Answers kp vp vecParams r := by
  fun_induction scan kp vp vecParams with
  | case1 vecParams kp v vp =>
    exact ⟨_, rfl, answers_wildcard vecParams (Nat.lt_of_succ_lt hk) hv⟩
  | case2 vecParams k kp v vp hstar hne => exact ⟨_, rfl, answers_differ vecParams hstar hne⟩
  | case3 vecParams k kp v vp hstar hne hparam ks hthrow =>
    have hname := (List.takeWhile_sublist (l := ks) (· ≠ 47)).length_le
    have htail : ks.length ≤ kp.length := by simp [ks]
    rw [List.length_cons] at hk
    rw [paramKey_eq (by omega)] at hthrow
    cases hthrow
  | case4 vecParams k kp v vp hstar hne hparam ks key hkey ih =>
    have hname := (List.takeWhile_sublist (l := ks) (· ≠ 47)).length_le
    have hks := (List.dropWhile_sublist (l := ks) (· ≠ 47)).length_le
    have hvp := (List.dropWhile_sublist (l := vp) (· ≠ 47)).length_le
    have htail : ks.length ≤ kp.length := by simp [ks]
    rw [List.length_cons] at hk hv
    rw [paramKey_eq (by omega), Option.some.injEq] at hkey
    subst hkey
    obtain ⟨r, hr, h⟩ := ih (by omega) (by omega)
    exact ⟨r, hr, answers_param hstar hne hparam h⟩
  | case5 vecParams k kp v vp hstar hne hparam ih =>
    obtain ⟨r, hr, h⟩ := ih (Nat.lt_of_succ_lt hk) (Nat.lt_of_succ_lt hv)
    exact ⟨r, hr, answers_literal hstar hne hparam h⟩
  | case6 vecParams kp vp hend =>
    refine ⟨_, rfl, answers_end vecParams ?_⟩
    cases kp with
    | nil => exact Or.inl rfl
    | cons k kp =>
      cases vp with
      | nil => exact Or.inr rfl
      | cons v vp => exact (hend _ _ _ _ rfl rfl).elim

/-- The part of a request path that is matched: up to the question mark, as a C string. -/
def requestPath (path : Bytes) : Bytes := (cStr path).takeWhile (· ≠ 63)

variable {H : Type*}

/-- The first node whose pattern matches, with the parameters of the match, or no node and no
parameters. -/
def Resolves (nodes : HTTPHandlerFuncVec H) (path : Bytes) :
    Option (RouterNode H) × Params → Prop
  | (some node, ps) => ∃ before after, nodes = before ++ node :: after ∧
      (∀ qs, Matches Opened (cStr node.fullPath) path qs ↔ qs = ps) ∧
      ∀ other ∈ before, ∀ qs, ¬ Matches Opened (cStr other.fullPath) path qs
  | (none, ps) => ps = [] ∧ ∀ other ∈ nodes, ∀ qs, ¬ Matches Opened (cStr other.fullPath) path qs

theorem Resolves.cons {node : RouterNode H} {nodes : HTTPHandlerFuncVec H} {path : Bytes}
    {r : Option (RouterNode H) × Params}
    (hnode : ∀ qs, ¬ Matches Opened (cStr node.fullPath) path qs)
    (h : Resolves nodes path r) : Resolves (node :: nodes) path r := by
  obtain ⟨found, ps⟩ := r
  cases found with
  | none =>
    refine ⟨h.1, ?_⟩
    intro other hother
    cases List.mem_cons.mp hother with
    | inl heq => exact heq ▸ hnode
    | inr hmem => exact h.2 other hmem
  | some winner =>
    obtain ⟨before, after, rfl, hm, hbefore⟩ := h
    refine ⟨node :: before, after, rfl, hm, ?_⟩
    intro other hother
    cases List.mem_cons.mp hother with
    | inl heq => exact heq ▸ hnode
    | inr hmem => exact hbefore other hmem

theorem findNode_spec {path : Bytes} (nodes : HTTPHandlerFuncVec H) (hpath : path.length < 2 ^ 31)
    (hnodes : ∀ node ∈ nodes, (cStr node.fullPath).length < 2 ^ 31) :
    ∃ r, findNode path [] nodes = some r ∧ Resolves nodes path r := by
  induction nodes with
  | nil => exact ⟨(none, []), rfl, rfl, fun other h => by cases h⟩
  | cons node nodes ih =>
    obtain ⟨r, hr, hfound, hnone⟩ := scan_spec [] (hnodes node List.mem_cons_self) hpath
    simp only [findNode, hr]
    cases hmatched : r.matched with
    | true =>
      obtain ⟨ps, hps, hm⟩ := hfound hmatched
      refine ⟨_, if_pos rfl, [], nodes, rfl, ?_, fun other h => by cases h⟩
      rw [hps, List.nil_append]
      cases ps with
      | nil => exact hm
      | cons p ps => exact hm
    | false =>
      obtain ⟨q, hq, hres⟩ := ih fun n hn => hnodes n (List.mem_cons_of_mem _ hn)
      refine ⟨q, ?_, hres.cons (hnone hmatched)⟩
      rw [← hq]
      rfl

def registered (routes : List (Bytes × RouterNode H)) (httpMethod : Bytes) :
    HTTPHandlerFuncVec H :=
  (routes.filter (·.1 = httpMethod)).map (·.2)

def AddRoutes (routes : List (Bytes × RouterNode H)) : HTTPMethodHandlerFuncMap H :=
  routes.foldl (fun m r => AddRoute m r.1 r.2.fullPath r.2.handler) ∅

theorem addRoute_getElem? (m : HTTPMethodHandlerFuncMap H) (httpMethod path : Bytes) (handler : H)
    (other : Bytes) : (AddRoute m httpMethod path handler)[other]? =
      if httpMethod = other then some (m[httpMethod]?.getD [] ++ [⟨path, handler⟩])
      else m[other]? := by
  rw [AddRoute]
  cases h : m[httpMethod]? <;> simp [StdMap.getElem?_insert]

/-- Under a method the table holds the nodes registered for it. -/
theorem addRoutes_getElem? (routes : List (Bytes × RouterNode H)) (httpMethod : Bytes) :
    (AddRoutes routes)[httpMethod]?.getD [] = registered routes httpMethod := by
  induction routes using List.reverseRecOn with
  | nil => rfl
  | append_singleton routes r ih =>
    have hfold : AddRoutes (routes ++ [r]) =
        AddRoute (AddRoutes routes) r.1 r.2.fullPath r.2.handler := by
      simp [AddRoutes, List.foldl_append]
    rw [hfold, addRoute_getElem?, registered, List.filter_append, List.map_append]
    by_cases h : r.1 = httpMethod
    · subst h
      rw [if_pos rfl, Option.getD_some, ih]
      simp [registered]
    · rw [if_neg h, ih]
      simp [registered, h]

def testRoutes : List (Bytes × RouterNode Unit) :=
  [(bytes "GET", ⟨bytes "/gettest", ()⟩), (bytes "POST", ⟨bytes "/gettest", ()⟩),
    (bytes "GET", ⟨bytes "/Z*", ()⟩), (bytes "GET", ⟨bytes "/gettest/:id", ()⟩)]

/-- A name of `2^31` bytes has a negative length. -/
theorem paramKey_throws {n : Nat} (hn : n = 2 ^ 31) :
    paramKey 58 (List.replicate n 97) = none := by
  have hlen : cInt (n : Int) = -2 ^ 31 := by
    rw [hn]
    decide
  simp [paramKey, hlen]

theorem long_name_throws {n : Nat} (hn : n = 2 ^ 31) :
    GetRouterNode [] (bytes "/5") [⟨bytes "/:" ++ List.replicate n 97, ()⟩] [] = none ∧
    Matches Segment (bytes "/:" ++ List.replicate n 97) (bytes "/5")
      [⟨List.replicate n 97, bytes "5"⟩] := by
  have hslash : (47 : UInt8) ∉ List.replicate n (97 : UInt8) := by
    intro h
    exact absurd (List.eq_of_mem_replicate h) (by decide)
  have hzero : (0 : UInt8) ∉ bytes "/:" ++ List.replicate n 97 := by
    intro h
    cases List.mem_append.mp h with
    | inl h => exact absurd h (by decide)
    | inr h => exact absurd (List.eq_of_mem_replicate h) (by decide)
  constructor
  · have hscan : scan (bytes "/:" ++ List.replicate n 97) (bytes "/5") [] = none := by
      rw [show bytes "/:" ++ List.replicate n 97 = 47 :: 58 :: List.replicate n 97 from rfl,
        show bytes "/5" = 47 :: [53] from rfl, scan]
      simp [paramKey_throws hn]
    have hpath : requestPath (bytes "/5") = bytes "/5" := by decide
    have hnode : findNode (requestPath (bytes "/5")) []
        [⟨bytes "/:" ++ List.replicate n 97, ()⟩] = none := by
      simp only [findNode, Url.cStr_eq hzero, hpath, hscan]
    exact hnode
  · have hseg : (47 : UInt8) ∉ 58 :: List.replicate n (97 : UInt8) := by
      intro h
      cases List.mem_cons.mp h with
      | inl h => exact absurd h (by decide)
      | inr h => exact hslash h
    have hm := Matches.param (Segment.colon _) hseg (by decide : 47 ∉ bytes "5") (Or.inl rfl) .nil
    rw [List.append_nil, List.append_nil] at hm
    exact hm

theorem not_segment {kp segment rest name : Bytes} (hcolon : kp.head? ≠ some 58)
    (hbrace : 125 ∉ kp) (h : kp = segment ++ rest) : ¬ Segment segment name := by
  intro hseg
  subst h
  cases hseg with
  | colon => exact hcolon rfl
  | braces => exact hbrace (by simp)

/-- Where no segment begins a character stands for itself. -/
theorem Matches.of_cons {Seg : Bytes → Bytes → Prop} {k v : UInt8} {kp vp : Bytes} {ps : Params}
    (h : Matches Seg (k :: kp) (v :: vp) ps) (hk : k ≠ 42)
    (hseg : ∀ segment rest name, kp = segment ++ rest → ¬ Seg segment name) :
    k = v ∧ Matches Seg kp vp ps := by
  cases h with
  | wildcard => exact absurd rfl hk
  | param hsegment => exact absurd hsegment (hseg _ _ _ rfl)
  | literal _ _ h => exact ⟨rfl, h⟩

end CppPrivate.Http
