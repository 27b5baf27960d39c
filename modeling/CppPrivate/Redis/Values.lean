import CppPrivate.Redis.Reply

/-! Strings and hashes with one field. Commands with a format and replies carry C strings, commands
with a list of arguments carry their lengths. -/
namespace CppPrivate.Redis
variable {σ : Type}

/-- `m_reply->integer` where there is a reply; `query` sets it inside a transaction. -/
def replyInteger (reply : Option redisReply) : Int :=
  match reply with
  | some (.integer n) => n
  | some (.bool bval) => if bval then 1 else 0
  | some (.status _) => 1
  | _ => 0

section Commands
variable (server : Server σ) (s : σ) (key field value : Bytes)

def get : Except CommandError (σ × Bytes) := do
  let (s, reply) ← query server s .STRING (bytes "GET %s") [C_STR key]
  return (s, ← replyText reply)

def set (val : Bytes) : Except CommandError (σ × Bool) := do
  let (s, reply) ← query server s .STATUS (bytes "SET %s %s") [C_STR key, C_STR val]
  return (s, replyOk reply)

def hset : Except CommandError (σ × Int) := do
  let (s, reply) ← query server s .INTEGER (bytes "HSET %s %s %s")
    [C_STR key, C_STR field, C_STR value]
  return (s, replyInteger reply)

def hget : Except CommandError (σ × Bytes) := do
  let (s, reply) ← query server s .STRING (bytes "HGET %s %s") [C_STR key, C_STR field]
  return (s, ← replyText reply)

def hmset (fields : StdMap Bytes) : Except CommandError (σ × Bool) := do
  let vecCmd := [bytes "HMSET", key] ++ fields.toList.flatMap fun it => [it.1, it.2]
  let (s, reply) ← queryArgv server s .STATUS vecCmd
  return (s, replyOk reply)

end Commands

/-- A server that has taken a value gives it back. -/
def Keeps (server : Server σ) (s : σ) (key value : Bytes) : Prop :=
  (server (server s (encode [bytes "SET", key, value])).1 (encode [bytes "GET", key])).2 =
    some (.string value)

/-- The values come through the commands and the replies as they are. -/
structure Unchanged (server : Server σ) (s : σ) (key field value : Bytes) : Prop where
  sent : ∃ k f v,
    (hset wire [] key field value).map Prod.fst = .ok [encode [bytes "HSET", k, f, v]] ∧
    (hmset wire [] key ((∅ : StdMap Bytes).insert field value)).map Prod.fst =
      .ok [encode [bytes "HMSET", k, f, v]]
  hget : (hget (fun s _ => (s, some (.string value))) () key field).map Prod.snd = .ok value
  get : (set server s key value >>= fun r => get server r.1 key).map Prod.snd = .ok value

section Sent
variable {server : Server σ} {s : σ} {key field value name : Bytes} {type : REDIS_REPLY}
  {args : List Bytes}

/-- A command within the length goes to the server. -/
theorem query_strings (hname : Plain name) (hlen : totlen (name :: args) < 2 ^ 31 - 1) :
    query server s type (name ++ args.flatMap fun _ => bytes " %s") args =
      .ok ((server s (encode (name :: args))).1,
        (server s (encode (name :: args))).2.filter (accepted type)) := by
  rw [query]
  rw [redisvFormatCommand_strings hname, if_pos hlen]
  rfl

theorem hset_wire : (hset wire [] key field value).map Prod.fst =
    if totlen [bytes "HSET", C_STR key, C_STR field, C_STR value] < 2 ^ 31 - 1 then
      .ok [encode [bytes "HSET", C_STR key, C_STR field, C_STR value]]
    else .error .undefined := by
  have hfmt : bytes "HSET %s %s %s" = bytes "HSET" ++
      [C_STR key, C_STR field, C_STR value].flatMap fun _ => bytes " %s" := rfl
  rw [hset, query]
  rw [hfmt, redisvFormatCommand_strings (by decide)]
  split <;> rfl

theorem toList_insert_empty (field value : Bytes) :
    ((∅ : StdMap Bytes).insert field value).toList = [(field, value)] := by
  have hlen : ((∅ : StdMap Bytes).insert field value).toList.length = 1 := by
    rw [Std.ExtTreeMap.length_toList, Std.ExtTreeMap.size_insert]
    simp
  obtain ⟨e, he⟩ := List.length_eq_one_iff.mp hlen
  have hmem : (field, value) ∈ ((∅ : StdMap Bytes).insert field value).toList := by
    rw [Std.ExtTreeMap.mem_toList_iff_getElem?_eq_some, StdMap.getElem?_insert, if_pos rfl]
  rw [he] at hmem ⊢
  rw [List.mem_singleton.mp hmem]

theorem hmset_wire : (hmset wire [] key ((∅ : StdMap Bytes).insert field value)).map Prod.fst =
    if totlen [bytes "HMSET", key, field, value] < 2 ^ 31 then
      .ok [encode [bytes "HMSET", key, field, value]]
    else .error .undefined := by
  have hargv : [bytes "HMSET", key] ++ ([(field, value)].flatMap fun it => [it.1, it.2]) =
      [bytes "HMSET", key, field, value] := rfl
  simp only [hmset, queryArgv, toList_insert_empty, hargv, redisFormatSdsCommandArgv]
  split <;> rfl

/-- The other commands with the same values are not longer. -/
theorem totlen_hset (h : totlen [bytes "HSET", key, field, value] < 2 ^ 31 - 1) :
    totlen [bytes "HMSET", key, field, value] < 2 ^ 31 ∧
    totlen [bytes "HGET", key, field] < 2 ^ 31 - 1 ∧
    totlen [bytes "SET", key, value] < 2 ^ 31 - 1 ∧ totlen [bytes "GET", key] < 2 ^ 31 - 1 := by
  have hname : bulklen (bytes "HSET").length = 10 ∧ bulklen (bytes "HMSET").length = 11 ∧
      bulklen (bytes "HGET").length = 10 ∧ bulklen (bytes "SET").length = 9 ∧
      bulklen (bytes "GET").length = 9 := by decide
  have hcount : countDigits 4 = 1 ∧ countDigits 3 = 1 ∧ countDigits 2 = 1 := by decide
  simp only [totlen, List.map_cons, List.map_nil, List.sum_cons, List.sum_nil, List.length_cons,
    List.length_nil, Nat.zero_add, Nat.reduceAdd, hname, hcount] at h ⊢
  omega

theorem hget_string (hkey : 0 ∉ key) (hfield : 0 ∉ field)
    (hlen : totlen [bytes "HGET", key, field] < 2 ^ 31 - 1) :
    (hget (fun s _ => (s, some (.string value))) s key field).map Prod.snd =
      .ok (C_STR value) := by
  have hfmt : bytes "HGET %s %s" = bytes "HGET" ++ [key, field].flatMap fun _ => bytes " %s" := rfl
  rw [hget]
  rw [C_STR_eq_self.mpr hkey, C_STR_eq_self.mpr hfield, hfmt, query_strings (by decide) hlen]
  rfl

/-- What `get` makes of the value that the server has kept. -/
theorem get_set (hkeeps : Keeps server s key value) (hkey : 0 ∉ key) (hvalue : 0 ∉ value)
    (hset : totlen [bytes "SET", key, value] < 2 ^ 31 - 1)
    (hget : totlen [bytes "GET", key] < 2 ^ 31 - 1) :
    (set server s key value >>= fun r => get server r.1 key).map Prod.snd = .ok value := by
  have hsetfmt : bytes "SET %s %s" = bytes "SET" ++ [key, value].flatMap fun _ => bytes " %s" := rfl
  have hgetfmt : bytes "GET %s" = bytes "GET" ++ [key].flatMap fun _ => bytes " %s" := rfl
  have hset' : set server s key value = .ok ((server s (encode [bytes "SET", key, value])).1,
      replyOk ((server s (encode [bytes "SET", key, value])).2.filter (accepted .STATUS))) := by
    rw [set]
    rw [C_STR_eq_self.mpr hkey, C_STR_eq_self.mpr hvalue, hsetfmt, query_strings (by decide) hset]
    rfl
  have hget' : ∀ u, (server u (encode [bytes "GET", key])).2 = some (.string value) →
      (get server u key).map Prod.snd = .ok value := by
    intro u hu
    rw [get]
    rw [C_STR_eq_self.mpr hkey, hgetfmt, query_strings (by decide) hget, hu]
    exact congrArg Except.ok (C_STR_eq_self.mpr hvalue)
  rw [hset']
  exact hget' _ hkeeps

end Sent

/-- The single-field and the multi-field command agree, and values come back as they were stored,
exactly when there is no zero byte in the key, the field and the value and the length of the
command is an `int`. -/
theorem values_unchanged (server : Server σ) (s : σ) (key field value : Bytes)
    (hkeeps : Keeps server s key value) :
    Unchanged server s key field value ↔
      0 ∉ key ∧ 0 ∉ field ∧ 0 ∉ value ∧
        totlen [bytes "HSET", key, field, value] < 2 ^ 31 - 1 := by
  constructor
  · intro h
    obtain ⟨k, f, v, hhset, hhmset⟩ := h.sent
    rw [hset_wire] at hhset
    rw [hmset_wire] at hhmset
    split at hhset
    · rename_i hlen
      split at hhmset
      · have hsent := encode_injective (List.singleton_injective (Except.ok.inj hhset))
        have hexact := encode_injective (List.singleton_injective (Except.ok.inj hhmset))
        simp only [List.cons.injEq, and_true, true_and] at hsent hexact
        obtain ⟨rfl, rfl, rfl⟩ := hexact
        rw [hsent.1, hsent.2.1, hsent.2.2] at hlen
        exact ⟨C_STR_eq_self.mp hsent.1, C_STR_eq_self.mp hsent.2.1, C_STR_eq_self.mp hsent.2.2,
          hlen⟩
      · cases hhmset
    · cases hhset
  · intro hcase
    obtain ⟨hkey, hfield, hvalue, hlen⟩ := hcase
    obtain ⟨hhmset, hhget, hset, hget⟩ := totlen_hset hlen
    refine ⟨⟨key, field, value, ?_, ?_⟩, ?_, get_set hkeeps hkey hvalue hset hget⟩
    · rw [hset_wire, C_STR_eq_self.mpr hkey, C_STR_eq_self.mpr hfield, C_STR_eq_self.mpr hvalue,
        if_pos hlen]
    · rw [hmset_wire, if_pos hhmset]
    · rw [hget_string hkey hfield hhget, C_STR_eq_self.mpr hvalue]

/-- A server with one value: whether it has been given. -/
def oneValue (key value : Bytes) : Server Bool := fun stored cmd =>
  if cmd = encode [bytes "SET", key, value] then (true, some (.status (bytes "OK")))
  else if cmd = encode [bytes "GET", key] then
    (stored, some (if stored then .string value else .nil))
  else (stored, some (.error (bytes "ERR unknown command")))

theorem values_unchanged_text :
    Keeps (oneValue (bytes "user 7") (bytes "100% sure")) false (bytes "user 7")
      (bytes "100% sure") ∧
    Unchanged (oneValue (bytes "user 7") (bytes "100% sure")) false (bytes "user 7")
      (bytes "a field") (bytes "100% sure") := by
  have hkeeps : Keeps (oneValue (bytes "user 7") (bytes "100% sure")) false (bytes "user 7")
      (bytes "100% sure") := by
    unfold Keeps oneValue
    rw [if_pos rfl, if_neg (by decide +kernel), if_pos rfl]
    rfl
  exact ⟨hkeeps, (values_unchanged _ false _ (bytes "a field") _ hkeeps).mpr (by decide +kernel)⟩

/-- A value with a zero byte: `hset` sends the part before it, `hmset` all of it, and `hget` and
`get` give the part before it. -/
theorem value_cut_at_zero :
    (hset wire [] (bytes "k") (bytes "f") [97, 0, 98]).map Prod.fst =
      .ok [encode [bytes "HSET", bytes "k", bytes "f", [97]]] ∧
    (hget (fun s _ => (s, some (.string [97, 0, 98]))) () (bytes "k") (bytes "f")).map Prod.snd =
      .ok [97] ∧
    Keeps (oneValue (bytes "k") [97, 0, 98]) false (bytes "k") [97, 0, 98] ∧
    ¬Unchanged (oneValue (bytes "k") [97, 0, 98]) false (bytes "k") (bytes "f") [97, 0, 98] := by
  refine ⟨by decide +kernel, by decide +kernel, ?_, fun h => absurd h.hget (by decide +kernel)⟩
  unfold Keeps oneValue
  rw [if_pos rfl, if_neg (by decide +kernel), if_pos rfl]
  rfl

end CppPrivate.Redis
