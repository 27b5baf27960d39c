import CppPrivate.Lib.Framing
import CppPrivate.Lib.Machine

/-! How a command goes to the server: the number of its arguments, then each argument after its
length. -/
namespace CppPrivate.Redis

/-- The loop of `countDigits`, for a number up to `fuel`. -/
def countDigitsLoop : Nat → Nat → Nat → Nat
  | 0, _, result => result
  | fuel + 1, v, result =>
    if v < 10 then result
    else if v < 100 then result + 1
    else if v < 1000 then result + 2
    else if v < 10000 then result + 3
    else countDigitsLoop fuel (v / 10000) (result + 4)

def countDigits (v : Nat) : Nat := countDigitsLoop v v 1

def bulklen (len : Nat) : Nat := 1 + countDigits len + 2 + len + 2

def totlen (argv : List Bytes) : Nat :=
  (argv.map fun a => bulklen a.length).sum + (1 + countDigits argv.length + 2)

/-- `$%zu\r\n`, the argument, `\r\n`. -/
def bulk (a : Bytes) : Bytes :=
  bytes "$" ++ (decimal a.length ++ bytes "\r\n" ++ a) ++ bytes "\r\n"

def encode (argv : List Bytes) : Bytes :=
  bytes "*" ++ decimal argv.length ++ bytes "\r\n" ++ argv.flatMap bulk

/-- Why a call comes to no end. `undefined`: an argument or an element is read that is not there, a
string is made of a null pointer, or a length leaves the range of an `int`. -/
inductive CommandError where
  | invalid  -- "Invalid format string"
  | undefined
deriving DecidableEq

instance exceptDecidableEq {ε α : Type} [DecidableEq ε] [DecidableEq α] :
    DecidableEq (Except ε α)
  | .ok a, .ok b => decidable_of_iff (a = b) ⟨congrArg Except.ok, Except.ok.inj⟩
  | .error a, .error b => decidable_of_iff (a = b) ⟨congrArg Except.error, Except.error.inj⟩
  | .ok _, .error _ => isFalse nofun
  | .error _, .ok _ => isFalse nofun

/-- A program that came to its end came to the end of its first part. -/
theorem bind_eq_ok {ε α β : Type} {x : Except ε α} {f : α → Except ε β} {b : β} :
    x >>= f = .ok b ↔ ∃ a, x = .ok a ∧ f a = .ok b := by
  cases x with
  | error e => simp [bind, Except.bind]
  | ok a => simp [bind, Except.bind]

/-- `redisFormatSdsCommandArgv`, whose result is an `int`. -/
def redisFormatSdsCommandArgv (argv : List Bytes) : Except CommandError Bytes :=
  if totlen argv < 2 ^ 31 then .ok (encode argv) else .error .undefined

theorem length_decimal (n : Nat) : (decimal (n : Int)).length = (Nat.toDigits 10 n).length := by
  change (bytes (toString n)).length = _
  simp [bytes]

theorem countDigitsLoop_eq {fuel v : Nat} (h : v ≤ fuel) (result : Nat) :
    countDigitsLoop fuel v result + 1 = result + (Nat.toDigits 10 v).length := by
  have hbase : ∀ {n : Nat}, n < 10 → (Nat.toDigits 10 n).length = 1 := by
    intro n hn
    rw [Nat.toDigits_of_lt_base hn, List.length_singleton]
  have hstep : ∀ {n : Nat}, 10 ≤ n →
      (Nat.toDigits 10 n).length = (Nat.toDigits 10 (n / 10)).length + 1 := by
    intro n hn
    rw [Nat.toDigits_of_base_le (by omega) hn, List.length_append, List.length_singleton]
  induction fuel generalizing v result with
  | zero =>
    obtain rfl := Nat.le_zero.mp h
    rfl
  | succ fuel ih =>
    rw [countDigitsLoop]
    split
    · rw [hbase (by omega)]
    · split
      · rw [hstep (by omega), hbase (by omega)]
      · split
        · rw [hstep (by omega), hstep (by omega), hbase (by omega)]
        · split
          · rw [hstep (by omega), hstep (by omega), hstep (by omega), hbase (by omega)]
          · have hdiv : v / 10 / 10 / 10 / 10 = v / 10000 := by omega
            rw [ih (by omega), hstep (n := v) (by omega), hstep (n := v / 10) (by omega),
              hstep (n := v / 10 / 10) (by omega), hstep (n := v / 10 / 10 / 10) (by omega), hdiv]
            omega

/-- `countDigits` is the length of the printed number. -/
theorem countDigits_eq (v : Nat) : countDigits v = (decimal (v : Int)).length := by
  have hloop := countDigitsLoop_eq (Nat.le_refl v) 1
  rw [length_decimal]
  rw [countDigits]
  omega

theorem length_bulk (a : Bytes) : (bulk a).length = bulklen a.length := by
  have hdollar : (bytes "$").length = 1 := rfl
  have hcrlf : (bytes "\r\n").length = 2 := rfl
  simp only [bulk, bulklen, List.length_append, hdollar, hcrlf, countDigits_eq]
  omega

/-- The assertion after the command is built. -/
theorem length_encode (argv : List Bytes) : (encode argv).length = totlen argv := by
  have hstar : (bytes "*").length = 1 := rfl
  have hcrlf : (bytes "\r\n").length = 2 := rfl
  simp only [encode, totlen, List.length_append, List.length_flatMap, hstar, hcrlf, length_bulk,
    countDigits_eq]
  omega

theorem decimal_selfDelimiting : SelfDelimiting fun n : Nat => decimal n ++ bytes "\r\n" := by
  have hcr : ∀ n : Nat, (13 : UInt8) ∉ decimal (n : Int) := by
    intro n hmem
    cases mem_decimal hmem with
    | inl hd => exact absurd hd (by decide)
    | inr hd => exact absurd hd (by decide)
  have hended : SelfDelimiting fun n : Nat => decimal n ++ [13] :=
    .ended (fun m n h => Int.ofNat.inj (decimal_inj h)) hcr
  intro m n s t h
  refine hended.append [10] m n s t ?_
  simpa [bytes] using h

theorem bulk_selfDelimiting : SelfDelimiting bulk :=
  ((decimal_selfDelimiting.counted).prepend _).append _

/-- A command tells its arguments. -/
theorem encode_injective : Function.Injective encode := by
  intro a b h
  simp only [encode, List.append_assoc, List.append_cancel_left_eq] at h
  obtain ⟨-, hargs⟩ := decimal_selfDelimiting a.length b.length (a.flatMap bulk) (b.flatMap bulk)
    (by simpa only [List.append_assoc] using h)
  refine bulk_selfDelimiting.flatMap_injective (fun a => ?_) hargs
  simp [bulk, bytes]

end CppPrivate.Redis
