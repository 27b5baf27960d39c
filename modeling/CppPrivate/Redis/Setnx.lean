import CppPrivate.Redis.Reply

/-! `setnx_ex` makes a text of its key and value and uses it as a format. -/
namespace CppPrivate.Redis

def FORMAT_BLOCK_SIZE : Int := 2048

/-- The result of `vsnprintf` that has `text` to print. -/
def vsnprintf (text : Bytes) : Int := if text.length < 2 ^ 31 then text.length else -1

/-- `StdStrUtils::FormatV` where the format with its arguments gives `text`. -/
def FormatV (text : Bytes) : Except CommandError Bytes :=
  let nActual := vsnprintf text
  if nActual > -1 ∧ nActual < FORMAT_BLOCK_SIZE then .ok text
  else if nActual > -1 then
    if nActual + 1 < 2 ^ 31 then .ok text else .error .undefined  -- `size = nActual + 1`
  else .error .undefined  -- `size` is doubled until it overflows

/-- The text `sQuery` of `setnx_ex`; the `long long` is printed as an `int`. -/
def setnxQuery (key val : Bytes) (expire : Int) : Except CommandError Bytes := do
  let sQuery ← FormatV (bytes "SET " ++ C_STR key ++ bytes " " ++ C_STR val ++ bytes " NX ")
  if expire > 0 then
    let sExpire ← FormatV (bytes "EX " ++ decimal (cInt expire))
    return sQuery ++ sExpire
  return sQuery

def setnx_ex {σ : Type} (server : Server σ) (s : σ) (key val : Bytes) (expire : Int) :
    Except CommandError (σ × Bool) := do
  let sQuery ← setnxQuery key val expire
  let (s, reply) ← query server s .STATUS (C_STR sQuery) []
  return (s, replyOk reply)

def setnxArgs (key val : Bytes) (expire : Int) : List Bytes :=
  [bytes "SET", key, val, bytes "NX"] ++ if expire > 0 then [bytes "EX", decimal expire] else []

theorem FormatV_eq (text : Bytes) :
    FormatV text = if text.length < 2 ^ 31 - 1 then .ok text else .error .undefined := by
  simp only [FormatV, vsnprintf, FORMAT_BLOCK_SIZE]
  split_ifs <;> first | rfl | omega

theorem decimal_plain (n : Int) : Plain (decimal n) := by
  have hmem : ∀ c : UInt8, isDigit c = false → c ≠ 45 → c ∉ decimal n := by
    intro c hdigit hminus hc
    cases mem_decimal hc with
    | inl h => rw [h] at hdigit; cases hdigit
    | inr h => exact hminus h
  refine ⟨?_, hmem 32 (by decide) (by decide), hmem 37 (by decide) (by decide)⟩
  cases n with
  | ofNat n =>
    rw [← List.length_pos_iff]
    exact (length_decimal n).symm ▸ Nat.length_toDigits_pos
  | negSucc n =>
    rw [decimal_negSucc]
    exact List.cons_ne_nil _ _

def setnxFormat (key val : Bytes) (expire : Int) : Bytes :=
  bytes "SET" ++ 32 :: (key ++ 32 :: (val ++ 32 :: (bytes "NX" ++ 32 ::
    if expire > 0 then bytes "EX" ++ 32 :: decimal (cInt expire) else [])))

section Setnx
variable {key val : Bytes} {expire : Int}

theorem setnxFormat_eq : setnxFormat key val expire =
    (bytes "SET " ++ key ++ bytes " " ++ val ++ bytes " NX ") ++
      if expire > 0 then bytes "EX " ++ decimal (cInt expire) else [] := by
  have hset : bytes "SET " = bytes "SET" ++ [32] := rfl
  have hspace : bytes " " = [32] := rfl
  have hnx : bytes " NX " = 32 :: (bytes "NX" ++ [32]) := rfl
  have hex : bytes "EX " = bytes "EX" ++ [32] := rfl
  simp only [setnxFormat, hset, hspace, hnx, hex, List.append_assoc, List.cons_append,
    List.nil_append]

theorem zero_notMem_setnxFormat (hkey : 0 ∉ key) (hval : 0 ∉ val) :
    0 ∉ setnxFormat key val expire := by
  have hdecimal : 0 ∉ decimal (cInt expire) := by
    intro h
    cases mem_decimal h with
    | inl h => exact absurd h (by decide)
    | inr h => exact absurd h (by decide)
  have hword : ∀ s ∈ [bytes "SET", bytes "NX", bytes "EX"], (0 : UInt8) ∉ s := by decide
  simp only [List.mem_cons, List.not_mem_nil, or_false, forall_eq_or_imp, forall_eq] at hword
  rw [setnxFormat]
  split <;> simp [hkey, hval, hdecimal, hword]

/-- Where `FormatV` succeeds, its text is the format of the command. -/
theorem setnxQuery_of_ok {sQuery : Bytes} (hkey : 0 ∉ key) (hval : 0 ∉ val)
    (h : setnxQuery key val expire = .ok sQuery) : sQuery = setnxFormat key val expire := by
  rw [setnxFormat_eq]
  simp only [setnxQuery, C_STR_eq_self.mpr hkey, C_STR_eq_self.mpr hval, FormatV_eq] at h
  by_cases hexpire : expire > 0
  · simp only [hexpire, if_true] at h ⊢
    split_ifs at h <;> first | exact (Except.ok.inj h).symm | cases h
  · simp only [hexpire, if_false, List.append_nil] at h ⊢
    split_ifs at h <;> first | exact (Except.ok.inj h).symm | cases h

theorem setnxQuery_of_length (hkey : 0 ∉ key) (hval : 0 ∉ val)
    (hlen : (setnxFormat key val expire).length < 2 ^ 31 - 1) :
    setnxQuery key val expire = .ok (setnxFormat key val expire) := by
  rw [setnxFormat_eq, List.length_append] at hlen
  rw [setnxFormat_eq]
  simp only [setnxQuery, C_STR_eq_self.mpr hkey, C_STR_eq_self.mpr hval, FormatV_eq]
  rw [if_pos (by omega)]
  by_cases hexpire : expire > 0
  · simp only [hexpire, if_true] at hlen ⊢
    rw [if_pos (by omega)]
    rfl
  · simp only [hexpire, if_false, List.append_nil]
    rfl

/-- What is sent is the command of the text. -/
theorem setnx_ex_wire {cmd : Bytes} : (setnx_ex wire [] key val expire).map Prod.fst = .ok [cmd] ↔
    ∃ sQuery, setnxQuery key val expire = .ok sQuery ∧
      redisvFormatCommand (C_STR sQuery) [] = .ok cmd := by
  unfold setnx_ex query
  cases setnxQuery key val expire with
  | error e => simp [bind, Except.bind, Except.map]
  | ok sQuery =>
    cases hcmd : redisvFormatCommand (C_STR sQuery) [] with
    | error e => simp [bind, Except.bind, Except.map, hcmd]
    | ok c => simp [bind, Except.bind, Except.map, hcmd, wire, pure, Except.pure]

/-- The arguments for a key and a value that are plain, with the expiry as it is printed. -/
theorem formatArgs_setnxFormat (hkey : Plain key) (hval : Plain val) :
    formatArgs (setnxFormat key val expire) [] [] false [] = .ok
      ([bytes "SET", key, val, bytes "NX"] ++
        if expire > 0 then [bytes "EX", decimal (cInt expire)] else []) := by
  have hword : ∀ s ∈ [bytes "SET", bytes "NX", bytes "EX"], Plain s := by decide
  simp only [List.mem_cons, List.not_mem_nil, or_false, forall_eq_or_imp, forall_eq] at hword
  obtain ⟨hset, hnx, hex⟩ := hword
  rw [setnxFormat]
  rw [formatArgs_word _ _ _ hset.1 hset.2.2 hset.2.1,
    formatArgs_word _ _ _ hkey.1 hkey.2.2 hkey.2.1, formatArgs_word _ _ _ hval.1 hval.2.2 hval.2.1,
    formatArgs_word _ _ _ hnx.1 hnx.2.2 hnx.2.1]
  split
  · have hdec := decimal_plain (cInt expire)
    rw [formatArgs_word _ _ _ hex.1 hex.2.2 hex.2.1, formatArgs_last _ _ hdec.1 hdec.2.2 hdec.2.1]
    rfl
  · rfl

/-- A command with the right arguments has a plain key and value: nothing in them has become part of
the format. -/
theorem plain_of_setnxArgs
    (h : formatArgs (setnxFormat key val expire) [] [] false [] = .ok (setnxArgs key val expire)) :
    Plain key ∧ Plain val := by
  have hdecimal : ∀ n, (decimal n).count 37 = 0 := fun n =>
    List.count_eq_zero.mpr (decimal_plain n).2.2
  have hword : (bytes "SET").count 37 = 0 ∧ (bytes "NX").count 37 = 0 ∧
      (bytes "EX").count 37 = 0 := by decide
  obtain ⟨hset, hnx, hex⟩ := hword
  have hlast : (setnxFormat key val expire).getLast? ≠ some 37 := by
    have hend : setnxFormat key val expire =
        (bytes "SET" ++ 32 :: (key ++ 32 :: (val ++ 32 :: bytes "NX"))) ++
          (32 :: if expire > 0 then bytes "EX" ++ 32 :: decimal (cInt expire) else []) := by
      simp [setnxFormat]
    intro hlast
    rw [hend, List.getLast?_append_of_ne_nil _ (List.cons_ne_nil _ _)] at hlast
    have hcount := List.count_pos_iff.mpr (List.mem_of_getLast? hlast)
    split at hcount <;> simp [List.count_append, hex, hdecimal] at hcount
  have hun := formatArgs_no_args h hlast (by simp) (by simp)
  have hmem : ∀ a ∈ setnxArgs key val expire, a ≠ [] ∧ 32 ∉ a := fun a ha =>
    (hun.mem a ha).resolve_left List.not_mem_nil
  -- every `%` of the format is one of the key or the value, and so is half of them
  have hfmt : (setnxFormat key val expire).count 37 = key.count 37 + val.count 37 := by
    rw [setnxFormat]
    split <;> simp [List.count_append, hset, hnx, hex, hdecimal]
  have hargs : (setnxArgs key val expire).flatten.count 37 = key.count 37 + val.count 37 := by
    rw [setnxArgs]
    split <;> simp [List.count_append, hset, hnx, hex, hdecimal]
  have hcount := hun.count
  rw [hfmt, hargs] at hcount
  simp only [List.count_nil, List.flatten_nil] at hcount
  obtain ⟨hk, hkspace⟩ := hmem key (by simp [setnxArgs])
  obtain ⟨hv, hvspace⟩ := hmem val (by simp [setnxArgs])
  exact ⟨⟨hk, hkspace, List.count_eq_zero.mp (by omega)⟩,
    ⟨hv, hvspace, List.count_eq_zero.mp (by omega)⟩⟩

end Setnx

/-- `setnx_ex` sends the command it is for exactly when the key and the value are not empty and have
neither spaces nor `%`, the expiry is an `int` and the length of the command is one. -/
theorem setnx_ex_transmits {key val : Bytes} (hkey : 0 ∉ key) (hval : 0 ∉ val) (expire : Int) :
    (setnx_ex wire [] key val expire).map Prod.fst = .ok [encode (setnxArgs key val expire)] ↔
      Plain key ∧ Plain val ∧ expire < 2 ^ 31 ∧ totlen (setnxArgs key val expire) < 2 ^ 31 - 1 := by
  constructor
  · intro h
    obtain ⟨sQuery, hq, hcmd⟩ := setnx_ex_wire.mp h
    obtain rfl := setnxQuery_of_ok hkey hval hq
    rw [C_STR_eq_self.mpr (zero_notMem_setnxFormat hkey hval)] at hcmd
    obtain ⟨hargs, hlen⟩ := redisvFormatCommand_eq_ok.mp hcmd
    obtain ⟨hk, hv⟩ := plain_of_setnxArgs hargs
    refine ⟨hk, hv, ?_, hlen⟩
    rw [formatArgs_setnxFormat hk hv] at hargs
    have hexp := List.append_cancel_left (Except.ok.inj hargs)
    by_cases hexpire : expire > 0
    · rw [if_pos hexpire, if_pos hexpire] at hexp
      have hint : cInt expire = expire := by
        simp only [List.cons.injEq, and_true, true_and] at hexp
        exact decimal_inj hexp
      exact hint ▸ cInt_lt expire
    · omega
  · intro hcase
    obtain ⟨hk, hv, hexpire, hlen⟩ := hcase
    have hint : expire > 0 → cInt expire = expire := by
      intro hpos
      rw [cInt, Int.bmod_def]
      omega
    have hargs : formatArgs (setnxFormat key val expire) [] [] false [] =
        .ok (setnxArgs key val expire) := by
      rw [formatArgs_setnxFormat hk hv, setnxArgs]
      split
      · rw [hint (by assumption)]
      · rfl
    refine setnx_ex_wire.mpr ⟨setnxFormat key val expire, setnxQuery_of_length hkey hval ?_, ?_⟩
    · have hset : (bytes "SET").length = 3 := rfl
      have hnx : (bytes "NX").length = 2 := rfl
      have hex : (bytes "EX").length = 2 := rfl
      unfold setnxArgs totlen bulklen at hlen
      unfold setnxFormat
      split at hlen
      · rename_i hpos
        simp only [hint hpos, if_pos hpos, List.length_append, List.length_cons, List.map_append,
          List.map_cons, List.map_nil, List.sum_append, List.sum_cons, List.sum_nil, hset, hnx,
          hex] at hlen ⊢
        omega
      · rename_i hpos
        simp only [if_neg hpos, List.length_append, List.length_cons, List.length_nil,
          List.map_append, List.map_cons, List.map_nil, List.sum_append, List.sum_cons,
          List.sum_nil, hset, hnx] at hlen ⊢
        omega
    · rw [C_STR_eq_self.mpr (zero_notMem_setnxFormat hkey hval)]
      exact redisvFormatCommand_eq_ok.mpr ⟨hargs, hlen⟩

/-- A lock with a time to live. -/
theorem setnx_ex_transmits_lock :
    (setnx_ex wire [] (bytes "lock:job") (bytes "worker-1") 30).map Prod.fst =
      .ok [encode [bytes "SET", bytes "lock:job", bytes "worker-1", bytes "NX", bytes "EX",
        bytes "30"]] :=
  (setnx_ex_transmits (by decide) (by decide) 30).mpr (by decide +kernel)

/-- A space divides the value, a `%` begins a conversion of an argument that is not there, and a
long expiry is printed as another number. -/
theorem setnx_ex_splits :
    (setnx_ex wire [] (bytes "greeting") (bytes "hello world") 0).map Prod.fst = .ok [encode
      [bytes "SET", bytes "greeting", bytes "hello", bytes "world", bytes "NX"]] ∧
    (setnx_ex wire [] (bytes "greeting") (bytes "hello world") 0).map Prod.fst ≠
      .ok [encode (setnxArgs (bytes "greeting") (bytes "hello world") 0)] ∧
    (setnx_ex wire [] (bytes "rate") (bytes "50% of it") 0).map Prod.fst = .error .undefined ∧
    (setnx_ex wire [] (bytes "k") (bytes "v") 4294967297).map Prod.fst ≠
      .ok [encode (setnxArgs (bytes "k") (bytes "v") 4294967297)] := by
  decide +kernel

end CppPrivate.Redis
