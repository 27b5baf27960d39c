import CppPrivate.Cluster.Command
import CppPrivate.Hiredis.Scan

/-! Which keys the parser finds in a command that was encoded. -/
namespace CppPrivate.Cluster
open Loop Redis
open Hiredis (CRLF)

inductive Format where
  | none | argz | arg0 | arg1 | arg2 | arg3 | argn | argx | argkvx | argsub | argeval
deriving DecidableEq

def layout (t : cmd_type) : Format :=
  if redis_argz t then .argz
  else if redis_arg0 t then .arg0
  else if redis_arg1 t then .arg1
  else if redis_arg2 t then .arg2
  else if redis_arg3 t then .arg3
  else if redis_argn t then .argn
  else if redis_argx t then .argx
  else if redis_argkvx t then .argkvx
  else if redis_argsub t then .argsub
  else if redis_argeval t then .argeval
  else .none

/-- No command has two formats. -/
theorem layouts (t : cmd_type) : redis_argz t = (layout t == .argz) ∧
    redis_arg0 t = (layout t == .arg0) ∧ redis_arg1 t = (layout t == .arg1) ∧
    redis_arg2 t = (layout t == .arg2) ∧ redis_arg3 t = (layout t == .arg3) ∧
    redis_argn t = (layout t == .argn) ∧ redis_argx t = (layout t == .argx) ∧
    redis_argkvx t = (layout t == .argkvx) ∧ redis_argsub t = (layout t == .argsub) ∧
    redis_argeval t = (layout t == .argeval) := by
  cases t <;> decide

def spans : List Bytes → List keypos
  | [] => []
  | a :: as => ⟨a ++ CRLF ++ as.flatMap bulk, CRLF ++ as.flatMap bulk, 0⟩ :: spans as

def alternate {α : Type} : List α → List α
  | [] => []
  | [a] => [a]
  | a :: _ :: as => a :: alternate as

/-- `EVAL` takes the number of its keys in digits, and there has to be one. -/
def CountsKeys (n : Bytes) : Prop := n ≠ [] ∧ n.all isDigit ∧ n.foldl digitU32 0 ≠ 0

instance (n : Bytes) : Decidable (CountsKeys n) := inferInstanceAs (Decidable (_ ∧ _ ∧ _))

/-- The keys of a command, or nothing where its arguments do not have the format. Without arguments
the text ends before a key is looked for. -/
def keysFound : Format → List Bytes → Option (List keypos)
  | .none, _ => none
  | .argz, _ => some []
  | _, [] => some []
  | .arg0, args => if args.length = 1 then some ((spans args).take 1) else none
  | .arg1, args => if args.length = 2 then some ((spans args).take 1) else none
  | .arg2, args => if args.length = 3 then some ((spans args).take 1) else none
  | .arg3, args => if args.length = 4 then some ((spans args).take 1) else none
  | .argn, args => some ((spans args).take 1)
  | .argx, args => some (spans args)
  | .argkvx, args =>
    if args.length = 1 ∨ args.length % 2 = 0 then some (alternate (spans args)) else none
  | .argsub, _ :: key :: args => some ((spans (key :: args)).take 1)
  | .argsub, [_] => none
  | .argeval, _ :: n :: key :: args =>
    if CountsKeys n then some ((spans (key :: args)).take 1) else none
  | .argeval, _ => none

def Parsed.found : Parsed → Option (cmd_type × List keypos)
  | .ok r => some (r.type, r.keys)
  | .error _ => none

section Shorter
variable {s : Parse}

/-- If the loop goes on then behind where it was. -/
def Advances (s : Parse) (r : Round Parse Parsed) : Prop :=
  ∀ t, r = .next t → t.p.length < s.p.length

theorem advances_done (r : Parsed) : Advances s (.done r) := by
  intro t h
  cases h

theorem advances_go {u : Parse} (hne : s.p ≠ []) (hle : u.p.length ≤ s.p.length) :
    Advances s (go u) := by
  rintro t ⟨⟩
  have hpos := List.length_pos_of_ne_nil hne
  rw [List.length_tail]
  omega

theorem advances_ite {c : Prop} [Decidable c] {r r' : Round Parse Parsed} (h : Advances s r)
    (h' : Advances s r') : Advances s (if c then r else r') := by
  split
  · exact h
  · exact h'

theorem textEnd_le {token m : Bytes} {rlen : Nat} (h : textEnd token rlen = some m) :
    m.length ≤ token.length := by
  unfold textEnd at h
  split at h
  case h_1 heq =>
    cases h
    rw [← heq, List.length_drop]
    omega
  case h_2 => cases h

theorem lenRound_advances (hne : s.p ≠ []) (ch : UInt8) (bad : Bool) (next : SW) :
    Advances s (lenRound s ch bad next) := by
  have hle := Nat.le_refl s.p.length
  unfold lenRound
  split
  · exact advances_ite (advances_done _) (advances_go hne hle)
  · exact advances_ite (advances_go hne hle) (advances_ite
      (advances_ite (advances_done _) (advances_go hne hle)) (advances_done _))

theorem lfRound_advances (hne : s.p ≠ []) (ch : UInt8) (next : SW) :
    Advances s (lfRound s ch next) := by
  exact advances_ite (advances_go hne (Nat.le_refl _)) (advances_done _)

theorem typeRound_advances (hne : s.p ≠ []) : Advances s (typeRound s) := by
  unfold typeRound
  cases hm : textEnd s.p s.rlen with
  | none => exact advances_done _
  | some m =>
    by_cases hv : redis_parse_cmd_verb (s.p.take s.rlen) = .UNKNOWN
    · simp only [hv, ite_true]
      exact advances_done _
    · simp only [hv, ite_false]
      exact advances_go hne (textEnd_le hm)

theorem textRound_advances (hne : s.p ≠ []) (a : Arg) : Advances s (textRound s a) := by
  unfold textRound
  cases hm : textEnd s.p s.rlen with
  | none => exact advances_done _
  | some m =>
    have hle := textEnd_le hm
    cases a with
    | KEY | ARG1 | ARG3 | ARGN => exact advances_go hne hle
    | ARG2 =>
      exact advances_ite (advances_ite (advances_done _) (advances_ite (advances_done _)
        (advances_ite (advances_done _) (advances_go hne hle)))) (advances_go hne hle)

theorem afterText_advances (hne : s.p ≠ []) (a : Arg) : Advances s (afterText s a) := by
  have hle := Nat.le_refl s.p.length
  cases a
  all_goals
    simp only [afterText]
    repeat' first
      | exact advances_done _
      | exact advances_go hne hle
      | apply advances_ite

/-- The loop goes from character to character, and ends. -/
theorem parseRound_advances (s : Parse) : Advances s (parseRound s) := by
  unfold parseRound
  cases hp : s.p with
  | nil => exact advances_done _
  | cons ch p =>
    have hne : s.p ≠ [] := by simp [hp]
    have hle : (ch :: p).length ≤ s.p.length := Nat.le_of_eq (by rw [hp])
    cases hs : s.state with
    | START | NARG =>
      cases htok : s.token with
      | none => exact advances_ite (advances_done _) (advances_go hne hle)
      | some token =>
        exact advances_ite (advances_go hne hle) (advances_ite
          (advances_ite (advances_done _) (advances_go hne hle)) (advances_done _))
    | NARG_LF | CMD_TYPE_LEN_LF | LEN_LF a => exact lfRound_advances hne ch _
    | CMD_TYPE_LEN => exact lenRound_advances hne ch _ _
    | CMD_TYPE => exact typeRound_advances hne
    | CMD_TYPE_LF =>
      exact advances_ite (advances_done _) (advances_ite (advances_done _)
        (advances_ite (advances_go hne hle) (advances_go hne hle)))
    | LEN a => cases a <;> exact lenRound_advances hne ch _ _
    | TEXT a => exact textRound_advances hne a
    | LF a =>
      exact advances_ite (afterText_advances hne a) (advances_done _)

end Shorter

section Rounds
variable {s : Parse} {a : Arg} {arg rest : Bytes} {n : Nat}

theorem foldl_digitU32 {ds : Bytes} (h : readOn n ds < 2 ^ 32) : ds.foldl digitU32 n = readOn n ds := by
  induction ds generalizing n with
  | nil => rfl
  | cons c ds ih =>
    rw [readOn_cons] at h ⊢
    have hle := le_readOn (n * 10 + (c.toNat - 48)) ds
    rw [List.foldl_cons, digitU32, Nat.mod_eq_of_lt (by omega), ih h]

/-- Reading the digits of a length. -/
theorem digits_reach {st next : SW} {bad : Parse → Bool}
    (hst : ∀ s ch p, s.state = st → s.p = ch :: p → parseRound s = lenRound s ch (bad s) next)
    {ds tok : Bytes} (hds : ∀ c ∈ ds, isDigit c = true) (hs : s.state = st)
    (htok : s.token = some tok) (hp : s.p = ds ++ rest) :
    Reaches parseRound s { s with p := rest, rlen := ds.foldl digitU32 s.rlen } := by
  induction ds generalizing s with
  | nil =>
    obtain rfl : s.p = rest := hp
    exact .refl
  | cons c ds ih =>
    have hc := hds c List.mem_cons_self
    have hround : parseRound s = .next { s with p := ds ++ rest, rlen := digitU32 s.rlen c } := by
      rw [hst s c _ hs hp, lenRound, htok]
      simp [hc, go, hp]
    exact (Reaches.once hround).trans
      (ih (fun d hd => hds d (List.mem_cons_of_mem c hd)) hs htok rfl)

/-- A length, up to the tests behind its digits. -/
theorem len_read {st next : SW} {bad : Parse → Bool}
    (hst : ∀ s ch p, s.state = st → s.p = ch :: p → parseRound s = lenRound s ch (bad s) next)
    (hn : n < 2 ^ 32) (hs : s.state = st) (htok : s.token = none)
    (hp : s.p = 36 :: (decimal n ++ 13 :: rest)) :
    Reaches parseRound s { s with p := 13 :: rest, token := some s.p, rlen := n } := by
  obtain ⟨d, ds, htext, hds, hval⟩ := read_decimal n
  have hread : (decimal (n : Int)).foldl digitU32 0 = n := by
    rw [htext, foldl_digitU32 (by omega), hval]
  have hopen : parseRound s =
      .next { s with p := decimal n ++ 13 :: rest, token := some s.p, rlen := 0 } := by
    rw [hst s _ _ hs hp, lenRound, htok]
    simp [go, hp]
  have hdigits := digits_reach
    (s := { s with p := decimal n ++ 13 :: rest, token := some s.p, rlen := 0 })
    hst (htext ▸ hds) hs rfl rfl
  rw [hread] at hdigits
  exact (Reaches.once hopen).trans hdigits

/-- A length, up to the line feed behind it. -/
theorem len_reach {st next : SW} {bad : Parse → Bool}
    (hst : ∀ s ch p, s.state = st → s.p = ch :: p → parseRound s = lenRound s ch (bad s) next)
    (hn : n < 2 ^ 32) (hs : s.state = st) (htok : s.token = none)
    (hp : s.p = 36 :: (decimal n ++ 13 :: rest))
    (hbad : bad { s with p := 13 :: rest, token := some s.p, rlen := n } = false) :
    Reaches parseRound s
      { s with p := rest, rlen := n, rnarg := s.rnarg - 1, token := none, state := next } := by
  refine (len_read hst hn hs htok hp).tail ?_
  rw [hst { s with p := 13 :: rest, token := some s.p, rlen := n } 13 rest hs rfl, lenRound, hbad]
  simp [go, isDigit]

theorem lf_reach {st next : SW}
    (hst : ∀ s ch p, s.state = st → s.p = ch :: p → parseRound s = lfRound s ch next)
    (hs : s.state = st) (hp : s.p = 10 :: rest) :
    Reaches parseRound s { s with p := rest, state := next } := by
  refine .once ?_
  rw [hst s _ _ hs hp, lfRound]
  simp [go, hp]

theorem bulk_append (arg rest : Bytes) :
    bulk arg ++ rest = 36 :: (decimal arg.length ++ 13 :: 10 :: (arg ++ 13 :: 10 :: rest)) := by
  simp [bulk, show bytes "$" = [36] by rfl, show bytes "\r\n" = [13, 10] by rfl]

def badLen (a : Arg) (s : Parse) : Bool :=
  match a with
  | .KEY => s.rnarg = 0
  | _ => tokenLen s ≤ 1 || s.rnarg = 0

theorem badLen_eq_false (hnarg : 0 < s.rnarg) (htok : s.token = some (36 :: (decimal n ++ s.p))) :
    badLen a s = false := by
  obtain ⟨d, ds, htext, -⟩ := read_decimal n
  have hlong : 1 < tokenLen s := by
    simp [tokenLen, htok, htext]
    omega
  have hzero : ¬ s.rnarg = 0 := by omega
  cases a <;> simp [badLen, hzero] <;> omega

theorem textEnd_append (arg rest : Bytes) :
    textEnd (arg ++ 13 :: rest) arg.length = some (13 :: rest) := by
  simp [textEnd]

def pushKey (a : Arg) (arg rest : Bytes) (keys : List keypos) : List keypos :=
  if a = .KEY then keys ++ [⟨arg ++ CRLF ++ rest, CRLF ++ rest, 0⟩] else keys

@[simp] theorem pushKey_of_ne (h : a ≠ .KEY) (arg rest : Bytes) (keys : List keypos) :
    pushKey a arg rest keys = keys := if_neg h

theorem pushKey_append (arg : Bytes) (args : List Bytes) (keys ks : List keypos) :
    pushKey .KEY arg (args.flatMap bulk) keys ++ ks =
      keys ++ ⟨arg ++ CRLF ++ args.flatMap bulk, CRLF ++ args.flatMap bulk, 0⟩ :: ks := by
  simp [pushKey]

theorem text_reach (ha : a = .ARG2 → redis_argeval s.type → CountsKeys arg)
    (hs : s.state = .TEXT a) (htok : s.token = none) (hrlen : s.rlen = arg.length)
    (hp : s.p = arg ++ 13 :: 10 :: rest) :
    Reaches parseRound s { s with
      p := 10 :: rest, state := .LF a, rlen := 0, keys := pushKey a arg rest s.keys } := by
  refine .once ?_
  have hround : parseRound s = textRound s a := by
    cases hc : s.p with
    | nil => simp [hc] at hp
    | cons ch p => simp [parseRound, hc, hs]
  rw [hround, textRound, hp, hrlen, textEnd_append, List.take_left]
  cases a with
  | KEY => simp [go, pushKey, htok, show CRLF = [13, 10] by rfl]
  | ARG2 =>
    by_cases heval : redis_argeval s.type
    · obtain ⟨hne, hdigits, hval⟩ := ha rfl heval
      simp [go, pushKey, heval, hne, hdigits, hval]
    · simp [go, pushKey, heval]
  | ARG1 | ARG3 | ARGN => simp [go, pushKey]

/-- The length of an argument, and the line's end behind it. -/
theorem to_text_reach (arg rest : Bytes) (hlen : arg.length < 2 ^ 32) (hs : s.state = .LEN a)
    (htok : s.token = none) (hnarg : 0 < s.rnarg) (hp : s.p = bulk arg ++ rest) :
    Reaches parseRound s { s with
      p := arg ++ 13 :: 10 :: rest, state := .TEXT a, rlen := arg.length, rnarg := s.rnarg - 1 } := by
  rw [bulk_append] at hp
  have hst : ∀ s ch p, s.state = .LEN a → s.p = ch :: p →
      parseRound s = lenRound s ch (badLen a s) (.LEN_LF a) := by
    intro s ch p hs hp
    cases a <;> simp [parseRound, badLen, hs, hp]
  have hlenR := len_reach hst hlen hs htok hp
    (badLen_eq_false (n := arg.length) hnarg (by simp [hp]))
  let u : Parse := { s with rlen := arg.length, rnarg := s.rnarg - 1, token := none }
  have hlf : Reaches parseRound
      { u with p := 10 :: (arg ++ 13 :: 10 :: rest), state := .LEN_LF a }
      { u with p := arg ++ 13 :: 10 :: rest, state := .TEXT a } :=
    lf_reach (fun s ch p hs hp => by simp [parseRound, hs, hp]) rfl rfl
  have hall := hlenR.trans hlf
  simpa only [u, ← htok] using hall

/-- An argument is taken for what it is, whatever its text. -/
theorem argument_reach (rest : Bytes) (ha : a = .ARG2 → redis_argeval s.type → CountsKeys arg)
    (hlen : arg.length < 2 ^ 32) (hs : s.state = .LEN a) (htok : s.token = none)
    (hnarg : 0 < s.rnarg) (hp : s.p = bulk arg ++ rest) :
    Reaches parseRound s { s with
      p := 10 :: rest, state := .LF a, rlen := 0, rnarg := s.rnarg - 1,
      keys := pushKey a arg rest s.keys } :=
  (to_text_reach arg rest hlen hs htok hnarg hp).trans (text_reach ha rfl htok rfl rfl)

/-- The script is not followed by the number of its keys. -/
theorem text_fails (heval : redis_argeval s.type) (hcount : ¬ CountsKeys arg)
    (hs : s.state = .TEXT .ARG2) (hrlen : s.rlen = arg.length) (hp : s.p = arg ++ 13 :: 10 :: rest) :
    ∃ r, Ends parseRound s (.error r) := by
  have hround : parseRound s = textRound s .ARG2 := by
    cases hc : s.p with
    | nil => simp [hc] at hp
    | cons ch p => simp [parseRound, hc, hs]
  refine ⟨{ s with p := 13 :: 10 :: rest, rlen := 0 }, .done ?_⟩
  rw [hround, textRound, hp, hrlen, textEnd_append, List.take_left]
  simp only [heval, ite_true, fail]
  by_cases hne : arg = []
  · rw [if_pos hne]
  by_cases hdigits : arg.all isDigit
  · have hval : arg.foldl digitU32 0 = 0 := by
      by_contra hval
      exact hcount ⟨hne, hdigits, hval⟩
    rw [if_neg hne, if_neg (by simpa using hdigits), if_pos hval]
  · rw [if_neg hne, if_pos hdigits]

end Rounds

def Finds (t : cmd_type) (s : Parse) (found : Option (List keypos)) : Prop :=
  ∃ r, Ends parseRound s r ∧ r.found = found.map (Prod.mk t)

theorem Finds.of_reaches {type : cmd_type} {s t : Parse} {found : Option (List keypos)}
    (h : Reaches parseRound s t) (ht : Finds type t found) : Finds type s found := by
  obtain ⟨r, hr, hfound⟩ := ht
  exact ⟨r, h.ends hr, hfound⟩

/-- The parser at a line's end, with arguments still to come. -/
def behind (t : cmd_type) (n : Nat) (state : SW) (args : List Bytes) (keys : List keypos) : Parse :=
  { p := 10 :: args.flatMap bulk, state := state, rnarg := args.length, type := t, narg := n,
    keys := keys }

section Arguments
variable {t : cmd_type} {n : Nat} {st : SW} {a : Arg} {arg : Bytes} {args : List Bytes}
  {keys : List keypos}

theorem finds_ok (h : parseRound (behind t n st args keys) = .done (.ok (behind t n st args keys))) :
    Finds t (behind t n st args keys) (some keys) := ⟨_, .done h, rfl⟩

theorem finds_error (h : parseRound (behind t n st args keys) =
    .done (.error (behind t n st args keys))) : Finds t (behind t n st args keys) none :=
  ⟨_, .done h, rfl⟩

theorem next_reach (a : Arg) (ha : a = .ARG2 → redis_argeval t → CountsKeys arg) (hlen : arg.length < 2 ^ 32)
    (hround : parseRound (behind t n st (arg :: args) keys) =
      go { behind t n st (arg :: args) keys with state := .LEN a }) :
    Reaches parseRound (behind t n st (arg :: args) keys)
      (behind t n (.LF a) args (pushKey a arg (args.flatMap bulk) keys)) :=
  (Reaches.once hround).trans
    (argument_reach (args.flatMap bulk) ha hlen rfl rfl (Nat.succ_pos _) rfl)

theorem parseRound_behind (b : Arg) :
    parseRound (behind t n (.LF b) args keys) = afterText (behind t n (.LF b) args keys) b := by
  simp [parseRound, behind]

/-- The remaining arguments of a command that takes any number of them. -/
theorem finds_rest (hl : layout t = .argn ∨ layout t = .argeval ∨ layout t = .argsub)
    (hargs : ∀ arg ∈ args, arg.length < 2 ^ 32) :
    Finds t (behind t n (.LF .ARGN) args keys) (some keys) := by
  have hround : ∀ args, parseRound (behind t n (.LF .ARGN) args keys) =
      if args.length = 0 then .done (.ok (behind t n (.LF .ARGN) args keys))
      else go { behind t n (.LF .ARGN) args keys with state := .LEN .ARGN } := by
    intro args
    rw [parseRound_behind]
    rcases hl with hl | hl | hl <;> simp [afterText, layouts, hl, behind]
  induction args with
  | nil => exact finds_ok (hround [])
  | cons arg args ih =>
    have hreach := next_reach (a := .ARGN) nofun (hargs arg List.mem_cons_self) (hround (arg :: args))
    exact .of_reaches hreach (ih fun b hb => hargs b (List.mem_cons_of_mem arg hb))

/-- The keys of a command that takes nothing else. -/
theorem finds_keys (hl : layout t = .argx) (hargs : ∀ arg ∈ args, arg.length < 2 ^ 32) :
    Finds t (behind t n (.LF .KEY) args keys) (some (keys ++ spans args)) := by
  have hround : ∀ args keys, parseRound (behind t n (.LF .KEY) args keys) =
      if args.length = 0 then .done (.ok (behind t n (.LF .KEY) args keys))
      else go { behind t n (.LF .KEY) args keys with state := .LEN .KEY } := by
    intro args keys
    rw [parseRound_behind]
    simp [afterText, layouts, hl, behind]
  induction args generalizing keys with
  | nil =>
    rw [spans, List.append_nil]
    exact finds_ok (hround [] keys)
  | cons arg args ih =>
    refine .of_reaches (next_reach .KEY nofun (hargs arg List.mem_cons_self)
      (hround (arg :: args) keys)) ?_
    rw [spans, ← pushKey_append]
    exact ih fun b hb => hargs b (List.mem_cons_of_mem arg hb)

/-- The value of a key, and the pairs behind it. -/
theorem finds_pairs (hl : layout t = .argkvx) (hn : n % 2 = 1) :
    ∀ (args : List Bytes) (value : Bytes) (keys : List keypos), args.length % 2 = 0 →
      (∀ arg ∈ value :: args, arg.length < 2 ^ 32) →
      Finds t (behind t n (.LF .KEY) (value :: args) keys) (some (keys ++ alternate (spans args)))
  | args, value, keys, heven, hargs => by
    have hkey : parseRound (behind t n (.LF .KEY) (value :: args) keys) =
        go { behind t n (.LF .KEY) (value :: args) keys with state := .LEN .ARG1 } := by
      rw [parseRound_behind]
      simp [afterText, layouts, hl, behind, hn]
    refine .of_reaches (next_reach .ARG1 nofun (hargs value List.mem_cons_self) hkey) ?_
    rw [pushKey_of_ne (by decide)]
    clear hkey
    match args with
    | [] =>
      rw [spans, alternate, List.append_nil]
      refine finds_ok ?_
      rw [parseRound_behind]
      simp [afterText, layouts, hl, behind]
    | [_] => simp at heven
    | key :: value' :: args =>
      have hnext : parseRound (behind t n (.LF .ARG1) (key :: value' :: args) keys) =
          go { behind t n (.LF .ARG1) (key :: value' :: args) keys with state := .LEN .KEY } := by
        rw [parseRound_behind]
        simp [afterText, layouts, hl, behind]
      refine .of_reaches (next_reach .KEY nofun (hargs key (by simp)) hnext) ?_
      have hrest := finds_pairs hl hn args value'
        (pushKey .KEY key ((value' :: args).flatMap bulk) keys) (by simp at heven; omega)
        fun b hb => hargs b (List.mem_cons_of_mem _ (List.mem_cons_of_mem _ hb))
      rw [pushKey_append] at hrest
      exact hrest

theorem finds_next (a : Arg) {found : Option (List keypos)} (hkey : a ≠ .KEY)
    (ha : a = .ARG2 → redis_argeval t → CountsKeys arg) (hlen : arg.length < 2 ^ 32)
    (hround : parseRound (behind t n st (arg :: args) keys) =
      go { behind t n st (arg :: args) keys with state := .LEN a })
    (h : Finds t (behind t n (.LF a) args keys) found) :
    Finds t (behind t n st (arg :: args) keys) found := by
  refine .of_reaches (next_reach a ha hlen hround) ?_
  rwa [pushKey_of_ne hkey]

def Format.behindKey : Format → Option Nat
  | arg0 => some 0
  | arg1 => some 1
  | arg2 => some 2
  | arg3 => some 3
  | _ => Option.none

theorem finds_fixed {k : Nat} (keys : List keypos) (hl : (layout t).behindKey = some k)
    (hargs : ∀ arg ∈ args, arg.length < 2 ^ 32) :
    Finds t (behind t n (.LF .KEY) args keys) (if args.length = k then some keys else none) := by
  have heval : redis_argeval t = false := by
    rw [(layouts t).2.2.2.2.2.2.2.2.2]
    cases hc : layout t <;> simp [hc, Format.behindKey] at hl <;> rfl
  have ha : ∀ {a : Arg} {arg : Bytes}, a = .ARG2 → redis_argeval t → CountsKeys arg := by
    simp [heval]
  split
  case isFalse hne =>
    refine finds_error ?_
    rw [parseRound_behind]
    cases hc : layout t <;> simp [hc, Format.behindKey] at hl
    all_goals
      subst hl
      simp [afterText, layouts, hc, behind, hne, fail]
  case isTrue heq =>
    cases hc : layout t <;> simp [hc, Format.behindKey] at hl
    case arg0 =>
      obtain rfl := List.eq_nil_of_length_eq_zero (heq.trans hl.symm)
      refine finds_ok ?_
      rw [parseRound_behind]
      simp [afterText, layouts, hc, behind]
    case arg1 =>
      obtain ⟨x, rfl⟩ := List.length_eq_one_iff.mp (heq.trans hl.symm)
      refine finds_next .ARG1 nofun ha (hargs x (by simp)) ?_ (finds_ok ?_)
      all_goals
        rw [parseRound_behind]
        simp [afterText, layouts, hc, behind]
    case arg2 =>
      obtain ⟨x, y, rfl⟩ := List.length_eq_two.mp (heq.trans hl.symm)
      refine finds_next .ARG1 nofun ha (hargs x (by simp)) ?_
        (finds_next .ARG2 nofun ha (hargs y (by simp)) ?_ (finds_ok ?_))
      all_goals
        rw [parseRound_behind]
        simp [afterText, layouts, hc, behind]
    case arg3 =>
      obtain ⟨x, y, z, rfl⟩ := List.length_eq_three.mp (heq.trans hl.symm)
      refine finds_next .ARG1 nofun ha (hargs x (by simp)) ?_
        (finds_next .ARG2 nofun ha (hargs y (by simp)) ?_
          (finds_next .ARG3 nofun ha (hargs z (by simp)) ?_ (finds_ok ?_)))
      all_goals
        rw [parseRound_behind]
        simp [afterText, layouts, hc, behind]

theorem finds_behind_key (hl : layout t = .argeval ∨ layout t = .argsub)
    (hargs : ∀ arg ∈ args, arg.length < 2 ^ 32) :
    Finds t (behind t n (.LF .KEY) args keys) (some keys) := by
  have hround : ∀ args, parseRound (behind t n (.LF .KEY) args keys) =
      if args.length = 0 then .done (.ok (behind t n (.LF .KEY) args keys))
      else go { behind t n (.LF .KEY) args keys with state := .LEN .ARGN } := by
    intro args
    rw [parseRound_behind]
    rcases hl with hl | hl <;> simp [afterText, layouts, hl, behind]
  cases args with
  | nil => exact finds_ok (hround [])
  | cons arg args =>
    refine finds_next .ARGN nofun nofun (hargs arg List.mem_cons_self) (hround (arg :: args)) ?_
    exact finds_rest (.inr hl) fun b hb => hargs b (List.mem_cons_of_mem arg hb)

/-- A subcommand, and the key behind it. -/
theorem finds_sub (hl : layout t = .argsub) (hargs : ∀ b ∈ arg :: args, b.length < 2 ^ 32) :
    Finds t (behind t n (.LF .ARG1) args []) (keysFound .argsub (arg :: args)) := by
  have hround : ∀ args, parseRound (behind t n (.LF .ARG1) args []) =
      if args.length < 1 then fail (behind t n (.LF .ARG1) args [])
      else go { behind t n (.LF .ARG1) args [] with state := .LEN .KEY } := by
    intro args
    rw [parseRound_behind]
    simp [afterText, layouts, hl, behind]
  cases args with
  | nil => exact finds_error (hround [])
  | cons key args =>
    refine .of_reaches (next_reach .KEY nofun (hargs key (by simp)) (hround (key :: args))) ?_
    exact finds_behind_key (.inr hl) fun b hb => hargs b (by simp [hb])

/-- A script, the number of its keys, and its first key. -/
theorem finds_eval (hl : layout t = .argeval) (hargs : ∀ b ∈ arg :: args, b.length < 2 ^ 32) :
    Finds t (behind t n (.LF .ARG1) args []) (keysFound .argeval (arg :: args)) := by
  have heval : redis_argeval t = true := by simp [layouts, hl]
  have hround : ∀ args, parseRound (behind t n (.LF .ARG1) args []) =
      if args.length < 2 then fail (behind t n (.LF .ARG1) args [])
      else go { behind t n (.LF .ARG1) args [] with state := .LEN .ARG2 } := by
    intro args
    rw [parseRound_behind]
    simp [afterText, layouts, hl, behind]
  match args with
  | [] => exact finds_error (hround [])
  | [x] => exact finds_error (hround [x])
  | count :: key :: args =>
    have hnext := hround (count :: key :: args)
    rw [if_neg (by simp)] at hnext
    by_cases hcount : CountsKeys count
    · refine finds_next .ARG2 nofun (fun _ _ => hcount) (hargs count (by simp)) hnext ?_
      have hkey : parseRound (behind t n (.LF .ARG2) (key :: args) []) =
          go { behind t n (.LF .ARG2) (key :: args) [] with state := .LEN .KEY } := by
        rw [parseRound_behind]
        simp [afterText, layouts, hl, behind]
      refine .of_reaches (next_reach .KEY nofun (hargs key (by simp)) hkey) ?_
      rw [keysFound, if_pos hcount]
      exact finds_behind_key (.inl hl) fun b hb => hargs b (by simp [hb])
    · rw [keysFound, if_neg hcount]
      refine .of_reaches (Reaches.once hnext) (.of_reaches (to_text_reach count
        ((key :: args).flatMap bulk) (hargs count (by simp)) rfl rfl (by simp [behind]) rfl) ?_)
      obtain ⟨r, hr⟩ := text_fails (s := { behind t n (.LF .ARG1) (count :: key :: args) [] with
        p := count ++ 13 :: 10 :: (key :: args).flatMap bulk, state := .TEXT .ARG2,
        rlen := count.length, rnarg := (key :: args).length }) heval hcount rfl rfl rfl
      exact ⟨_, hr, rfl⟩

/-- A key, and any arguments. -/
theorem finds_any (hl : layout t = .argn) (hargs : ∀ arg ∈ args, arg.length < 2 ^ 32) :
    Finds t (behind t n (.LF .KEY) args keys) (some keys) := by
  have hround : ∀ b, b = .KEY ∨ b = .ARG1 → ∀ args, parseRound (behind t n (.LF b) args keys) =
      if args.length = 0 then .done (.ok (behind t n (.LF b) args keys))
      else go { behind t n (.LF b) args keys with state := .LEN (if b = .KEY then .ARG1 else .ARGN) } := by
    intro b hb args
    rw [parseRound_behind]
    rcases hb with rfl | rfl <;> simp [afterText, layouts, hl, behind]
  match args with
  | [] => exact finds_ok (hround .KEY (.inl rfl) [])
  | [x] =>
    refine finds_next .ARG1 nofun nofun (hargs x (by simp)) (hround .KEY (.inl rfl) [x]) ?_
    exact finds_ok (hround .ARG1 (.inr rfl) [])
  | x :: y :: args =>
    refine finds_next .ARG1 nofun nofun (hargs x (by simp)) (hround .KEY (.inl rfl) _) ?_
    refine finds_next .ARGN nofun nofun (hargs y (by simp)) (hround .ARG1 (.inr rfl) _) ?_
    exact finds_rest (.inl hl) fun b hb => hargs b (by simp [hb])

/-- A key with its value, and the pairs behind them. -/
theorem finds_values (hl : layout t = .argkvx) (hn : n = args.length + 2)
    (hargs : ∀ b ∈ args, b.length < 2 ^ 32) :
    Finds t (behind t n (.LF .KEY) args (pushKey .KEY arg (args.flatMap bulk) []))
      (keysFound .argkvx (arg :: args)) := by
  cases args with
  | nil =>
    refine finds_ok ?_
    rw [parseRound_behind]
    simp [afterText, layouts, hl, behind]
  | cons value args =>
    rw [List.length_cons] at hn
    by_cases heven : args.length % 2 = 0
    · have hpairs := finds_pairs hl (by omega : n % 2 = 1) args value
        (pushKey .KEY arg ((value :: args).flatMap bulk) []) heven hargs
      rw [pushKey_append] at hpairs
      rw [keysFound, if_pos (by simp; omega)]
      · exact hpairs
      · simp
    · rw [keysFound, if_neg (by simp; omega)]
      · refine finds_error ?_
        rw [parseRound_behind]
        simp [afterText, layouts, hl, behind, fail, show n % 2 = 0 by omega]
      · simp

theorem finds_start (hl : layout t ≠ .none) (hn : n = args.length + 1)
    (hargs : ∀ arg ∈ args, arg.length < 2 ^ 32) :
    Finds t (behind t n .CMD_TYPE_LF args []) (keysFound (layout t) args) := by
  have hround : parseRound (behind t n .CMD_TYPE_LF args []) =
      if layout t = .argz then .done (.ok (behind t n .CMD_TYPE_LF args []))
      else go { behind t n .CMD_TYPE_LF args [] with
        state := .LEN (if layout t = .argeval ∨ layout t = .argsub then .ARG1 else .KEY) } := by
    cases hc : layout t <;> simp [parseRound, behind, layouts, hc]
  by_cases hz : layout t = .argz
  · rw [hz, keysFound]
    exact finds_ok (hround.trans (if_pos hz))
  rw [if_neg hz] at hround
  cases args with
  | nil =>
    have hnone : keysFound (layout t) [] = some [] := by
      cases hc : layout t <;> simp [hc] at hl hz <;> rfl
    rw [hnone]
    exact .of_reaches (Reaches.once hround) ⟨_, .done rfl, rfl⟩
  | cons arg args =>
    have hrest : ∀ b ∈ args, b.length < 2 ^ 32 := fun b hb => hargs b (List.mem_cons_of_mem arg hb)
    by_cases hsecond : layout t = .argeval ∨ layout t = .argsub
    · rw [if_pos hsecond] at hround
      refine finds_next .ARG1 nofun nofun (hargs arg (by simp)) hround ?_
      rcases hsecond with hc | hc
      · rw [hc]
        exact finds_eval hc hargs
      · rw [hc]
        exact finds_sub hc hargs
    rw [if_neg hsecond] at hround
    refine .of_reaches (next_reach .KEY nofun (hargs arg (by simp)) hround) ?_
    have hfirst : pushKey .KEY arg (args.flatMap bulk) [] = (spans (arg :: args)).take 1 := rfl
    have hcount : ∀ k, ((arg :: args).length = k + 1) = (args.length = k) := by simp
    cases hc : layout t <;> simp only [hc] at hl hz hsecond
    case none => exact absurd rfl hl
    case argz => exact absurd trivial hz
    case argeval | argsub => simp at hsecond
    case arg0 | arg1 | arg2 | arg3 =>
      have hfixed := finds_fixed (t := t) (n := n)
        (pushKey .KEY arg (args.flatMap bulk) []) (by rw [hc]; rfl) hrest
      rw [hfirst] at hfixed ⊢
      simpa only [keysFound, hcount] using hfixed
    case argn => exact finds_any hc hrest
    case argx => exact finds_keys hc hrest
    case argkvx => exact finds_values hc hn hrest

end Arguments

/-- Every name that is looked for is that of a format. -/
theorem layout_verb {m : Bytes} (h : redis_parse_cmd_verb m ≠ .UNKNOWN) :
    layout (redis_parse_cmd_verb m) ≠ .none := by
  have htable : ∀ len, ∀ v ∈ verbs len, layout v.2 ≠ .none := by
    intro len
    unfold verbs
    split <;> decide
  unfold redis_parse_cmd_verb at h ⊢
  split
  case h_1 v hv => exact htable _ v (List.mem_of_find?_eq_some hv)
  case h_2 hv => simp [hv] at h

section Whole
variable {name : Bytes} {args : List Bytes}

theorem count_reach {s : Parse} {ds tok rest : Bytes} (hds : ∀ c ∈ ds, isDigit c = true)
    (hs : s.state = .NARG) (htok : s.token = some tok) (hp : s.p = ds ++ rest) :
    Reaches parseRound s { s with p := rest, rnarg := ds.foldl digitU32 s.rnarg } := by
  induction ds generalizing s with
  | nil =>
    obtain rfl : s.p = rest := hp
    exact .refl
  | cons c ds ih =>
    have hround : parseRound s = .next { s with p := ds ++ rest, rnarg := digitU32 s.rnarg c } := by
      simp [parseRound, hs, htok, hp, hds c List.mem_cons_self, go]
    exact (Reaches.once hround).trans
      (ih (fun d hd => hds d (List.mem_cons_of_mem c hd)) hs htok rfl)

theorem header_reach {n : Nat} {rest : Bytes} (hpos : 0 < n) (hn : n < 2 ^ 32) :
    Reaches parseRound { p := 42 :: (decimal n ++ 13 :: 10 :: rest) }
      { p := rest, state := .CMD_TYPE_LEN, rnarg := n, narg := n } := by
  obtain ⟨d, ds, htext, hds, hval⟩ := read_decimal n
  have hread : (decimal (n : Int)).foldl digitU32 0 = n := by
    rw [htext, foldl_digitU32 (by omega), hval]
  let tok : Bytes := 42 :: (decimal n ++ 13 :: 10 :: rest)
  have hopen : Reaches parseRound { p := tok }
      { p := decimal n ++ 13 :: 10 :: rest, state := .NARG, token := some tok } := .once rfl
  have hdigits := count_reach (s := { p := decimal n ++ 13 :: 10 :: rest, state := .NARG, token := some tok })
    (htext ▸ hds) rfl rfl rfl
  rw [hread] at hdigits
  have hclose : Reaches parseRound { p := 13 :: 10 :: rest, state := .NARG, token := some tok, rnarg := n }
      { p := 10 :: rest, state := .NARG_LF, rnarg := n, narg := n } := by
    refine .once ?_
    simp [parseRound, isDigit, go, show ¬ n = 0 by omega]
  exact ((hopen.trans hdigits).trans hclose).tail rfl

theorem finds_name {n : Nat} (hname : name.length < 2 ^ 32) (hn : n = args.length + 1)
    (hargs : ∀ arg ∈ args, arg.length < 2 ^ 32) :
    Finds (redis_parse_cmd_verb name)
      { p := bulk name ++ args.flatMap bulk, state := .CMD_TYPE_LEN, rnarg := n, narg := n }
      (keysFound (layout (redis_parse_cmd_verb name)) args) := by
  let rest := args.flatMap bulk
  let s : Parse := { p := bulk name ++ rest, state := .CMD_TYPE_LEN, rnarg := n, narg := n }
  have hst : ∀ s ch p, s.state = .CMD_TYPE_LEN → s.p = ch :: p →
      parseRound s = lenRound s ch (s.rlen = 0 || s.rnarg = 0) .CMD_TYPE_LEN_LF := by
    intro s ch p hs hp
    simp [parseRound, hs, hp]
  have hp : s.p = 36 :: (decimal name.length ++ 13 :: 10 :: (name ++ 13 :: 10 :: rest)) :=
    bulk_append name rest
  by_cases hempty : name = []
  · subst hempty
    have hnone : layout (redis_parse_cmd_verb []) = .none := by decide
    rw [hnone]
    exact .of_reaches (len_read hst hname rfl rfl hp) ⟨_, .done rfl, rfl⟩
  have hpos : name.length ≠ 0 := fun h0 => hempty (List.eq_nil_of_length_eq_zero h0)
  have hlen := len_reach hst hname rfl rfl hp (by simp [s, hpos, hn])
  let u : Parse := { s with rlen := name.length, rnarg := args.length }
  have hlf : Reaches parseRound
      { u with p := 10 :: (name ++ 13 :: 10 :: rest), state := .CMD_TYPE_LEN_LF }
      { u with p := name ++ 13 :: 10 :: rest, state := .CMD_TYPE } :=
    lf_reach (fun s ch p hs hp => by simp [parseRound, hs, hp]) rfl rfl
  have hrnarg : s.rnarg - 1 = args.length := by simp [s, hn]
  rw [hrnarg] at hlen
  refine .of_reaches (hlen.trans hlf) ?_
  have htype : ∀ v : Parse, v.state = .CMD_TYPE → v.p = name ++ 13 :: 10 :: rest →
      parseRound v = typeRound v := by
    intro v hv hpv
    cases hc : v.p with
    | nil => simp [hc] at hpv
    | cons ch p => simp [parseRound, hc, hv]
  have hround := htype { u with p := name ++ 13 :: 10 :: rest, state := .CMD_TYPE } rfl rfl
  simp only [typeRound, u, textEnd_append, List.take_left] at hround
  by_cases hverb : redis_parse_cmd_verb name = .UNKNOWN
  · rw [if_pos hverb] at hround
    rw [hverb]
    exact ⟨_, .done hround, rfl⟩
  · rw [if_neg hverb] at hround
    exact .of_reaches (Reaches.once hround) (finds_start (layout_verb hverb) hn hargs)

theorem length_flatMap_bulk {arg : Bytes} (h : arg ∈ args) :
    arg.length ≤ (args.flatMap bulk).length := by
  induction args with
  | nil => cases h
  | cons a args ih =>
    rw [List.flatMap_cons, List.length_append, length_bulk, bulklen]
    rcases List.mem_cons.mp h with rfl | h
    · omega
    · have hle := ih h
      omega

theorem length_le_encode (argv : List Bytes) : argv.length ≤ (encode argv).length := by
  have hone : ∀ n ∈ argv.map fun a => bulklen a.length, 1 ≤ n := by
    intro n hn
    obtain ⟨a, -, rfl⟩ := List.mem_map.mp hn
    rw [bulklen]
    omega
  have hle := List.length_le_sum_of_one_le _ hone
  rw [List.length_map] at hle
  rw [length_encode, totlen]
  omega

/-- The parser finds in an encoded command the keys that its format tells, and no others; where the
number of the arguments does not fit the format it fails. -/
theorem redis_parse_cmd_encode (h : (encode (name :: args)).length < 2 ^ 31) :
    (redis_parse_cmd (encode (name :: args))).map Parsed.found =
      some ((keysFound (layout (redis_parse_cmd_verb name)) args).map
        (Prod.mk (redis_parse_cmd_verb name))) := by
  have htext : encode (name :: args) = 42 :: (decimal (args.length + 1 : Nat) ++
      13 :: 10 :: (bulk name ++ args.flatMap bulk)) := by
    simp [encode, show bytes "*" = [42] by rfl, show bytes "\r\n" = [13, 10] by rfl]
  have hlong : ∀ arg ∈ name :: args, arg.length < 2 ^ 31 := by
    intro arg harg
    have hle := length_flatMap_bulk harg
    rw [htext] at h
    simp only [List.flatMap_cons, List.length_append, List.length_cons] at h hle
    omega
  have hcount : args.length + 1 < 2 ^ 32 := by
    have hle := length_le_encode (name :: args)
    rw [List.length_cons] at hle
    omega
  have hfinds : Finds (redis_parse_cmd_verb name) { p := encode (name :: args) }
      (keysFound (layout (redis_parse_cmd_verb name)) args) := by
    rw [htext]
    refine .of_reaches (header_reach (Nat.succ_pos _) hcount) (finds_name ?_ rfl ?_)
    · exact Nat.lt_trans (hlong name (by simp)) (by decide)
    · exact fun arg harg => Nat.lt_trans (hlong arg (by simp [harg])) (by decide)
  obtain ⟨r, hr, hfound⟩ := hfinds
  rw [redis_parse_cmd, iterate_of_ends (fun s => s.p.length) (fun s t => parseRound_advances s t)
    (Nat.lt_succ_self _) hr, Option.map_some, hfound]

end Whole

/-- The arguments that are keys, or nothing where there are not those the format has. -/
def keyArgs : Format → List Bytes → Option (List Bytes)
  | .none, _ => none
  | .argz, _ => some []
  | _, [] => some []
  | .arg0, args => if args.length = 1 then some (args.take 1) else none
  | .arg1, args => if args.length = 2 then some (args.take 1) else none
  | .arg2, args => if args.length = 3 then some (args.take 1) else none
  | .arg3, args => if args.length = 4 then some (args.take 1) else none
  | .argn, args => some (args.take 1)
  | .argx, args => some args
  | .argkvx, args => if args.length = 1 ∨ args.length % 2 = 0 then some (alternate args) else none
  | .argsub, _ :: key :: args => some ((key :: args).take 1)
  | .argsub, [_] => none
  | .argeval, _ :: n :: key :: args => if CountsKeys n then some ((key :: args).take 1) else none
  | .argeval, _ => none

section Keys

theorem spans_key (args : List Bytes) : (spans args).map keypos.key = args := by
  induction args with
  | nil => rfl
  | cons a args ih =>
    rw [spans, List.map_cons, ih, keypos.key]
    simp [List.append_assoc]

theorem spans_take_key (n : Nat) (args : List Bytes) :
    ((spans args).take n).map keypos.key = args.take n := by
  rw [List.map_take, spans_key]

theorem alternate_map {α β : Type} (f : α → β) (l : List α) :
    (alternate l).map f = alternate (l.map f) := by
  induction l using alternate.induct with
  | case1 => rfl
  | case2 a => rfl
  | case3 a b l ih => rw [alternate, List.map_cons, ih, List.map_cons, List.map_cons, alternate]

theorem map_found {c : Prop} [Decidable c] {kps : List keypos} {l : List Bytes}
    (h : kps.map keypos.key = l) :
    (if c then some kps else none).map (List.map keypos.key) = if c then some l else none := by
  split
  · exact congrArg some h
  · rfl

theorem keysFound_keys (f : Format) (args : List Bytes) :
    (keysFound f args).map (List.map keypos.key) = keyArgs f args := by
  cases args with
  | nil => cases f <;> rfl
  | cons a args =>
    cases f with
    | none => rfl
    | argz => rfl
    | arg0 => exact map_found (spans_take_key 1 _)
    | arg1 => exact map_found (spans_take_key 1 _)
    | arg2 => exact map_found (spans_take_key 1 _)
    | arg3 => exact map_found (spans_take_key 1 _)
    | argn => exact congrArg some (spans_take_key 1 _)
    | argx => exact congrArg some (spans_key _)
    | argkvx => exact map_found (by rw [alternate_map, spans_key])
    | argsub =>
      cases args with
      | nil => rfl
      | cons key args => exact congrArg some (spans_take_key 1 _)
    | argeval =>
      cases args with
      | nil => rfl
      | cons n args =>
        cases args with
        | nil => rfl
        | cons key args => exact map_found (spans_take_key 1 _)

/-- Of every command that is encoded the parser tells the type, and as its keys the arguments that its
format says. -/
theorem redis_parse_cmd_keys (name : Bytes) (args : List Bytes)
    (h : (encode (name :: args)).length < 2 ^ 31) :
    ∃ r, redis_parse_cmd (encode (name :: args)) = some r ∧
      r.found.map (Prod.map id (List.map keypos.key)) =
        (keyArgs (layout (redis_parse_cmd_verb name)) args).map
          (Prod.mk (redis_parse_cmd_verb name)) := by
  obtain ⟨r, hr, hfound⟩ := Option.map_eq_some_iff.mp (redis_parse_cmd_encode h)
  refine ⟨r, hr, ?_⟩
  rw [hfound, ← keysFound_keys, Option.map_map, Option.map_map]
  rfl

theorem redis_parse_cmd_keys_eval : ∃ r,
    redis_parse_cmd (encode [bytes "eval", bytes "return 1", bytes "1", bytes "k", bytes "v"]) =
        some r ∧
      r.found.map (Prod.map id (List.map keypos.key)) = some (.EVAL, [bytes "k"]) := by
  exact redis_parse_cmd_keys (bytes "eval") [bytes "return 1", bytes "1", bytes "k", bytes "v"]
    (by decide)

end Keys

end CppPrivate.Cluster
