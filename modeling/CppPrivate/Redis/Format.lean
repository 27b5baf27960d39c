import Mathlib.Data.List.TakeWhile
import CppPrivate.Redis.Protocol

/-! Commands that are formatted. The values of `%s` are taken as they are; spaces and conversions of
the format itself give the command its structure. -/
namespace CppPrivate.Redis

/-- `c_str()`, read up to the first zero byte. -/
def C_STR (s : Bytes) : Bytes := s.takeWhile (· ≠ 0)

def isFlag (c : UInt8) : Bool := (bytes "#0-+ ").contains c

def isIntfmt (c : UInt8) : Bool := (bytes "diouxX").contains c

/-- After the length modifiers a conversion of an integer is required. -/
def intfmtFirst : Bytes → Bool
  | c :: _ => isIntfmt c
  | [] => false

/-- The text after a `%` is a numeric conversion of `printf`. At the end of the format `strchr`
finds the zero byte in every set. -/
def fmtValid (spec : Bytes) : Bool :=
  let width := (spec.dropWhile isFlag).dropWhile isDigit
  let p := match width with
    | 46 :: precision => precision.dropWhile isDigit
    | _ => width
  match p with
  | [] => true
  | 104 :: 104 :: rest => intfmtFirst rest
  | 104 :: rest => intfmtFirst rest
  | 108 :: 108 :: rest => intfmtFirst rest
  | 108 :: rest => intfmtFirst rest
  | c :: _ => isIntfmt c || (bytes "eEfFgGaA").contains c

/-- The loop of `redisvFormatCommand` over the format, for arguments that are all `char *`; a
conversion of any other argument reads one that is not there. The result is its `curargv`. -/
def formatArgs : Bytes → List Bytes → Bytes → Bool → List Bytes →
    Except CommandError (List Bytes)
  | [], _, curarg, touched, curargv => .ok (if touched then curargv ++ [curarg] else curargv)
  | [c], args, curarg, touched, curargv =>
    if c = 32 then formatArgs [] args [] false (if touched then curargv ++ [curarg] else curargv)
    else formatArgs [] args (curarg ++ [c]) true curargv
  | c :: d :: rest, args, curarg, touched, curargv =>
    if c ≠ 37 then
      if c = 32 then
        formatArgs (d :: rest) args [] false (if touched then curargv ++ [curarg] else curargv)
      else formatArgs (d :: rest) args (curarg ++ [c]) true curargv
    else if d = 115 then
      match args with
      | arg :: args => formatArgs rest args (curarg ++ arg) true curargv
      | [] => .error .undefined
    else if d = 98 then .error .undefined
    else if d = 37 then formatArgs rest args (curarg ++ [37]) true curargv
    else .error (if fmtValid (d :: rest) then .undefined else .invalid)

/-- `redisvFormatCommand`, whose `totlen` is an `int`. -/
def redisvFormatCommand (format : Bytes) (args : List Bytes) : Except CommandError Bytes :=
  formatArgs format args [] false [] >>= fun curargv =>
    if totlen curargv < 2 ^ 31 - 1 then .ok (encode curargv) else .error .undefined

/-- A text that a format takes as one argument and as it is. -/
def Plain (w : Bytes) : Prop := w ≠ [] ∧ 32 ∉ w ∧ 37 ∉ w

instance (w : Bytes) : Decidable (Plain w) := inferInstanceAs (Decidable (_ ∧ _ ∧ _))

theorem C_STR_eq_self {s : Bytes} : C_STR s = s ↔ 0 ∉ s := by
  rw [C_STR, List.takeWhile_eq_self_iff]
  constructor
  · intro h hmem
    exact absurd (h 0 hmem) (by decide)
  · intro h b hb
    exact decide_eq_true fun he => h (he ▸ hb)

section Formats
variable {c : UInt8} {w : Bytes} (rest : Bytes) (args : List Bytes) (curarg : Bytes)
  (touched : Bool) (curargv : List Bytes)

theorem formatArgs_char (hpct : c ≠ 37) (hspace : c ≠ 32) :
    formatArgs (c :: rest) args curarg touched curargv =
      formatArgs rest args (curarg ++ [c]) true curargv := by
  cases rest with
  | nil =>
    rw [formatArgs.eq_def]
    exact if_neg hspace
  | cons d rest =>
    rw [formatArgs.eq_def]
    exact (if_pos hpct).trans (if_neg hspace)

theorem formatArgs_space : formatArgs (32 :: rest) args curarg touched curargv =
    formatArgs rest args [] false (if touched then curargv ++ [curarg] else curargv) := by
  cases rest with
  | nil =>
    rw [formatArgs.eq_def]
    exact if_pos rfl
  | cons d rest =>
    rw [formatArgs.eq_def]
    exact (if_pos (by decide)).trans (if_pos rfl)

theorem formatArgs_string (arg : Bytes) :
    formatArgs (37 :: 115 :: rest) (arg :: args) curarg touched curargv =
      formatArgs rest args (curarg ++ arg) true curargv := by
  rw [formatArgs, if_neg (by decide), if_pos rfl]

/-- Text of the format without spaces and conversions is part of the current argument. -/
theorem formatArgs_text (hne : w ≠ []) (hpct : 37 ∉ w) (hspace : 32 ∉ w) :
    formatArgs (w ++ rest) args curarg touched curargv =
      formatArgs rest args (curarg ++ w) true curargv := by
  induction w generalizing curarg touched with
  | nil => exact absurd rfl hne
  | cons c w ih =>
    simp only [List.mem_cons, not_or] at hpct hspace
    rw [List.cons_append, formatArgs_char _ _ _ _ _ (Ne.symm hpct.1) (Ne.symm hspace.1)]
    by_cases hw : w = []
    · subst hw
      rfl
    · rw [ih _ _ hw hpct.2 hspace.2, List.append_assoc, List.singleton_append]

theorem formatArgs_word (hne : w ≠ []) (hpct : 37 ∉ w) (hspace : 32 ∉ w) :
    formatArgs (w ++ 32 :: rest) args [] false curargv =
      formatArgs rest args [] false (curargv ++ [w]) := by
  rw [formatArgs_text _ _ _ _ _ hne hpct hspace, formatArgs_space]
  rfl

theorem formatArgs_last (hne : w ≠ []) (hpct : 37 ∉ w) (hspace : 32 ∉ w) :
    formatArgs w args [] false curargv = .ok (curargv ++ [w]) := by
  have htext := formatArgs_text [] args [] false curargv hne hpct hspace
  rw [List.append_nil] at htext
  rw [htext]
  rfl

end Formats

/-- What a format without arguments has put in its list of arguments, and what is left of its
`%`. -/
structure Unescaped (curargv out : List Bytes) (percents : Nat) : Prop where
  mem : ∀ a ∈ out, a ∈ curargv ∨ (a ≠ [] ∧ 32 ∉ a)
  count : 2 * out.flatten.count 37 = percents + 2 * curargv.flatten.count 37

theorem Unescaped.push {curarg : Bytes} {touched : Bool} {curargv : List Bytes}
    (htouched : touched = true ↔ curarg ≠ []) (hspace : 32 ∉ curarg) :
    Unescaped curargv (if touched then curargv ++ [curarg] else curargv)
      (2 * curarg.count 37) := by
  cases touched with
  | true =>
    refine ⟨fun a ha => ?_, ?_⟩
    · obtain ha | rfl := by simpa using ha
      · exact Or.inl ha
      · exact Or.inr ⟨htouched.mp rfl, hspace⟩
    · simp only [if_true, List.flatten_append, List.flatten_singleton, List.count_append]
      omega
  | false =>
    have hnil : curarg = [] := by
      by_contra hne
      cases htouched.mpr hne
    refine ⟨fun a ha => Or.inl ha, ?_⟩
    simp [hnil]

section Unescaped
variable {c : UInt8} {rest curarg : Bytes} {touched : Bool} {curargv out : List Bytes}

/-- A character that is not part of a conversion, where the rest of the format does so. -/
theorem Unescaped.char (h : formatArgs (c :: rest) [] curarg touched curargv = .ok out)
    (hpct : c ≠ 37) (htouched : touched = true ↔ curarg ≠ []) (hspace : 32 ∉ curarg)
    (ih : ∀ {curarg touched curargv}, formatArgs rest [] curarg touched curargv = .ok out →
      (touched = true ↔ curarg ≠ []) → 32 ∉ curarg →
      Unescaped curargv out (rest.count 37 + 2 * curarg.count 37)) :
    Unescaped curargv out ((c :: rest).count 37 + 2 * curarg.count 37) := by
  rw [List.count_cons_of_ne hpct]
  by_cases hc : c = 32
  · subst hc
    rw [formatArgs_space] at h
    have hrest := ih h (by simp) (by simp)
    have hpush : Unescaped curargv (if touched then curargv ++ [curarg] else curargv) _ :=
      push htouched hspace
    refine ⟨fun a ha => ?_, ?_⟩
    · obtain ha | ha := hrest.mem a ha
      · exact hpush.mem a ha
      · exact Or.inr ha
    · have h1 := hrest.count
      have h2 := hpush.count
      simp only [List.count_nil] at h1
      omega
  · rw [formatArgs_char _ _ _ _ _ hpct hc] at h
    have hrest := ih h (by simp) (by simp [hspace, Ne.symm hc])
    refine ⟨hrest.mem, ?_⟩
    have h1 := hrest.count
    rw [List.count_append, List.count_singleton] at h1
    simp only [beq_iff_eq, hpct, if_false] at h1
    omega

/-- Without arguments for its conversions a format gives arguments that are not empty and have no
spaces, and of its `%` every second one is lost. -/
theorem formatArgs_no_args {fmt : Bytes} (h : formatArgs fmt [] curarg touched curargv = .ok out)
    (hlast : fmt.getLast? ≠ some 37) (htouched : touched = true ↔ curarg ≠ [])
    (hspace : 32 ∉ curarg) : Unescaped curargv out (fmt.count 37 + 2 * curarg.count 37) := by
  induction hn : fmt.length using Nat.strong_induction_on
    generalizing fmt curarg touched curargv with
  | _ n ih =>
    subst hn
    cases fmt with
    | nil =>
      obtain rfl := Except.ok.inj h
      simpa using Unescaped.push htouched hspace
    | cons c fmt =>
      by_cases hpct : c = 37
      · subst hpct
        cases fmt with
        | nil => exact absurd rfl hlast
        | cons d rest =>
          have hrest : rest.getLast? ≠ some 37 := fun he => hlast (by simp [List.getLast?_cons, he])
          rw [formatArgs.eq_def] at h
          simp only [ne_eq, not_true_eq_false, if_false] at h
          split at h
          · cases h
          · split at h
            · cases h
            · split at h
              · -- `%%`
                rename_i hd
                subst hd
                have hlt : rest.length < (37 :: 37 :: rest).length := by
                  simp only [List.length_cons]
                  omega
                have hun := ih rest.length hlt h hrest (by simp) (by simp [hspace]) rfl
                refine ⟨hun.mem, ?_⟩
                have hcount := hun.count
                simp only [List.count_append, List.count_cons_self, List.count_nil] at hcount ⊢
                omega
              · cases h
      · refine Unescaped.char h hpct htouched hspace fun h' htouched' hspace' => ?_
        refine ih fmt.length (by simp) h' (fun he => hlast ?_) htouched' hspace' rfl
        simp [List.getLast?_cons, he]

end Unescaped

/-- Each `%s` after a space is one argument, whatever is in it. -/
theorem formatArgs_strings (args : List Bytes) (curarg : Bytes) (curargv : List Bytes) :
    formatArgs (args.flatMap fun _ => bytes " %s") args curarg true curargv =
      .ok (curargv ++ curarg :: args) := by
  induction args generalizing curarg curargv with
  | nil => rfl
  | cons arg args ih =>
    have hcons : ((arg :: args).flatMap fun _ => bytes " %s") =
        32 :: 37 :: 115 :: args.flatMap fun _ => bytes " %s" := rfl
    rw [hcons, formatArgs_space, if_pos rfl, formatArgs_string, List.nil_append, ih,
      List.append_assoc, List.singleton_append]

theorem redisvFormatCommand_eq_ok {fmt : Bytes} {args argv : List Bytes} :
    redisvFormatCommand fmt args = .ok (encode argv) ↔
      formatArgs fmt args [] false [] = .ok argv ∧ totlen argv < 2 ^ 31 - 1 := by
  rw [redisvFormatCommand, bind_eq_ok]
  constructor
  · intro h
    obtain ⟨curargv, hargs, hencode⟩ := h
    split at hencode
    · obtain rfl := encode_injective (Except.ok.inj hencode)
      exact ⟨hargs, by assumption⟩
    · cases hencode
  · intro h
    exact ⟨argv, h.1, if_pos h.2⟩

/-- A command whose format is its name and a `%s` for each argument. -/
theorem redisvFormatCommand_strings {name : Bytes} (hname : Plain name) (args : List Bytes) :
    redisvFormatCommand (name ++ args.flatMap fun _ => bytes " %s") args =
      if totlen (name :: args) < 2 ^ 31 - 1 then .ok (encode (name :: args))
      else .error .undefined := by
  rw [redisvFormatCommand]
  rw [formatArgs_text _ _ _ _ _ hname.1 hname.2.2 hname.2.1, formatArgs_strings]
  rfl

end CppPrivate.Redis
