import Mono98.SplitScan

/-!
`split_string` as the quoting tokenizer, for any number of buffers of any sizes.

The count of the pieces is a `uint16_t` and the index into the string an `int32_t`: up to
65535 tokens and below 2³¹ bytes the pieces are the tokens, and arguments that are quoted and
joined are split again into themselves.
-/

namespace Mono98.Quoting

open Mono98.Strings Mono98.Tokens Mono98.SplitScan Mono98.Lib.Bytes

variable (d e : UInt8)

/-- An argument between two escape characters. -/
def quote (t : List UInt8) : List UInt8 := e :: (t ++ [e])

/-- The arguments quoted, and joined by single delimiters. -/
def joinQuoted : List (List UInt8) → List UInt8
  | [] => []
  | [t] => quote e t
  | t :: t' :: ts => quote e t ++ d :: joinQuoted (t' :: ts)

/-- There are `n` buffers, filled with zeros, the `i`th of `size i` bytes. -/
def Zeroed (n : ℕ) (size : ℕ → ℕ) (out : ℕ → ℤ → UInt8) : Prop :=
  ∀ i < n, ∀ k : ℕ, k < size i → out i k = 0

/-- The tokens have a buffer each, and room for a terminator there. -/
structure Room (n : ℕ) (size : ℕ → ℕ) (ts : List (List UInt8)) : Prop where
  count : ts.length ≤ n
  fits : ∀ i (hi : i < ts.length), ts[i].length < size i

/-- The string and its tokens can be counted. -/
structure Countable (s : List UInt8) (ts : List (List UInt8)) : Prop where
  bytes : s.length < 2 ^ 31
  tokens : ts.length < 2 ^ 16

/-- The call returns the number of tokens, and leaves the tokens in the buffers. -/
def Yields (str : ℕ → UInt8) (out : ℕ → ℤ → UInt8) (ts : List (List UInt8)) : Prop :=
  ∃ out', splitString str d e out = some (ts.length, out') ∧
    ∀ i (hi : i < ts.length), IsString (fun k : ℕ => out' i k) 0 ts[i]

variable {d e} {s t rest cur : List UInt8} {args : List (List UInt8)} {str : ℕ → UInt8}

/-! ### Quoted arguments -/

/-- Up to the closing quote everything is kept. -/
lemma tokensFrom_quoted (ht : e ∉ t) :
    tokensFrom d e true cur (t ++ e :: rest) = tokensFrom d e false (cur ++ t) rest := by
  induction t generalizing cur with
  | nil => simp [tokensFrom]
  | cons c t ih =>
    simp only [List.mem_cons, not_or] at ht
    rw [List.cons_append, tokensFrom, if_neg (Ne.symm ht.1), if_neg (by simp), ih ht.2,
      List.append_assoc]
    rfl

lemma tokensFrom_quote (ht : e ∉ t) :
    tokensFrom d e false [] (quote e t ++ rest) = tokensFrom d e false t rest := by
  rw [quote, List.cons_append, List.append_assoc, tokensFrom, if_pos rfl]
  exact tokensFrom_quoted ht

lemma joinQuoted_ne_nil (h : args ≠ []) : joinQuoted d e args ≠ [] := by
  match args, h with
  | [t], _ => simp [joinQuoted, quote]
  | t :: t' :: ts, _ => simp [joinQuoted, quote]

/-- Every argument has two quotes. -/
lemma count_joinQuoted (hde : d ≠ e) (ha : ∀ t ∈ args, e ∉ t) :
    (joinQuoted d e args).count e = 2 * args.length := by
  have count_quote : ∀ t, e ∉ t → (quote e t).count e = 2 := fun t ht => by
    simp [quote, List.count_eq_zero_of_not_mem ht]
  induction args with
  | nil => rfl
  | cons t ts ih =>
    have ht := count_quote t (ha t (by simp))
    cases ts with
    | nil => exact ht
    | cons t' ts =>
      rw [joinQuoted, List.count_append, List.count_cons_of_ne hde, ht,
        ih fun t ht => ha t (List.mem_cons_of_mem _ ht)]
      simp only [List.length_cons]
      omega

/-- **Quoting**: the tokens of the joined arguments are the arguments. -/
lemma tokens_joinQuoted (hde : d ≠ e) (h : args ≠ []) (ha : ∀ t ∈ args, e ∉ t) :
    tokens d e (joinQuoted d e args) = args := by
  induction args with
  | nil => exact absurd rfl h
  | cons t ts ih =>
    have ht := ha t (by simp)
    cases ts with
    | nil =>
      have hq : tokensFrom d e false [] (quote e t ++ []) = [t] := tokensFrom_quote ht
      rwa [List.append_nil] at hq
    | cons t' ts =>
      have hts : ∀ t ∈ t' :: ts, e ∉ t := fun t ht => ha t (List.mem_cons_of_mem _ ht)
      rw [tokens, joinQuoted, tokensFrom_quote ht, tokensFrom, if_neg hde, if_pos ⟨rfl, rfl⟩,
        if_neg (joinQuoted_ne_nil (by simp))]
      exact congrArg (t :: ·) (ih (by simp) hts)

/-! ### The tokenizer -/

/-- Buffers of one size. -/
lemma room_of_all {n width : ℕ} {ts : List (List UInt8)} (hn : ts.length ≤ n)
    (h : ∀ t ∈ ts, t.length < width) : Room n (fun _ => width) ts :=
  ⟨hn, fun _ hi => h _ (List.getElem_mem hi)⟩

lemma Zeroed.fills {n i : ℕ} {size : ℕ → ℕ} {out : ℕ → ℤ → UInt8} (h : Zeroed n size out)
    (hi : i < n) : Fills (size i) (out i) [] :=
  ⟨stands_nil _ _, fun k _ hk => h i hi k hk⟩

/-- A string with balanced quotes. -/
lemma yields_tokens (hde : d ≠ e) (hs : IsString str 0 s) (hne : s ≠ []) (he : s.count e % 2 = 0)
    {n : ℕ} {size : ℕ → ℕ} (hroom : Room n size (tokens d e s)) (hc : Countable s (tokens d e s))
    {out : ℕ → ℤ → UInt8} (hout : Zeroed n size out) : Yields d e str out (tokens d e s) := by
  have hcount : (tokens d e s).length ≤ min n 65535 := by
    have := hroom.count
    have := hc.tokens
    omega
  exact splitString_fits hs hne hde he hc.bytes (Nat.min_le_right _ _) size hcount hroom.fits
    fun i hi => hout.fills (Nat.lt_of_lt_of_le hi (Nat.min_le_left _ _))

/-- **The quoting tokenizer.** Every string with balanced quotes that can be counted, and whose
tokens have room, is split into its tokens. So arguments without escape characters that have
been quoted and joined are split into themselves. -/
theorem split_string_tokenizes (hde : d ≠ e) (n : ℕ) (size : ℕ → ℕ) (out : ℕ → ℤ → UInt8)
    (hout : Zeroed n size out) (str : ℕ → UInt8) :
    (∀ s, IsString str 0 s → s ≠ [] → s.count e % 2 = 0 → Room n size (tokens d e s) →
      Countable s (tokens d e s) → Yields d e str out (tokens d e s)) ∧
    ∀ args, args ≠ [] → (∀ t ∈ args, e ∉ t) → IsString str 0 (joinQuoted d e args) →
      Room n size args → Countable (joinQuoted d e args) args → Yields d e str out args := by
  refine ⟨fun s hs hne he hroom hc => yields_tokens hde hs hne he hroom hc hout,
    fun args h ha hs hroom hc => ?_⟩
  have htok := tokens_joinQuoted hde h ha
  have key := yields_tokens hde hs (joinQuoted_ne_nil h)
    (by rw [count_joinQuoted hde ha]; omega) (by rw [htok]; exact hroom) (by rw [htok]; exact hc)
    hout
  rwa [htok] at key

/-- Two quoted arguments, one of them with a space in it. -/
theorem split_string_tokenizes_two :
    Yields 32 34 (fun n => [34, 65, 32, 34, 32, 34, 66, 34].getD n 0) (fun _ _ => 0)
      [[65, 32], [66]] := by
  exact (split_string_tokenizes (by decide) 2 (fun _ => 3) (fun _ _ => 0) (fun _ _ _ _ => rfl) _).2
    [[65, 32], [66]] (by decide) (by decide) (isString_getD (by simp))
    (room_of_all (by decide) (by decide)) ⟨by simp [joinQuoted, quote], by simp⟩

/-! ### What cannot be counted -/

lemma tokensFrom_replicate (hde : d ≠ e) {c : UInt8} (hd : c ≠ d) (he : c ≠ e) (n : ℕ) :
    tokensFrom d e false [] (List.replicate n d ++ [c]) = List.replicate n [] ++ [[c]] := by
  induction n with
  | zero => simp [tokensFrom, hd, he]
  | succ n ih => simp [List.replicate_succ, tokensFrom, hde, ih]

lemma delimiters_replicate (hde : d ≠ e) {c : UInt8} (hd : c ≠ d) (he : c ≠ e) (n : ℕ) :
    delimiters d e false (List.replicate n d ++ [c]) = n := by
  induction n with
  | zero => simp [delimiters, hd, he]
  | succ n ih => simp [List.replicate_succ, delimiters, hde, ih]

lemma tokensFrom_quotes (quoted : Bool) (n : ℕ) :
    tokensFrom d e quoted cur (List.replicate n e) = [cur] := by
  induction n generalizing quoted with
  | zero => rfl
  | succ n ih => rw [List.replicate_succ, tokensFrom, if_pos rfl, ih]

/-- A letter behind 65536 spaces. -/
def spaces : List UInt8 := List.replicate 65536 32 ++ [65]

/-- As many quotes as an `int32_t` cannot count. -/
def quotes : List UInt8 := List.replicate (2 ^ 31) 34

lemma isString_spaces : IsString (fun n => spaces.getD n 0) 0 spaces := by
  refine isString_getD fun c hc => ?_
  rcases List.mem_append.mp hc with hc | hc
  · rw [List.eq_of_mem_replicate hc]
    decide
  · rw [List.mem_singleton.mp hc]
    decide

lemma tokens_spaces : tokens 32 34 spaces = List.replicate 65536 [] ++ [[65]] :=
  tokensFrom_replicate (by decide) (by decide) (by decide) _

lemma isString_quotes : IsString (fun n => quotes.getD n 0) 0 quotes :=
  isString_getD fun c hc => by rw [List.eq_of_mem_replicate hc]; decide

lemma tokens_quotes : tokens 32 34 quotes = [[]] := tokensFrom_quotes false _

/-- One of the 65537 tokens of `spaces` is counted. -/
lemma spaces_not_yields :
    ¬ Yields 32 34 (fun n => spaces.getD n 0) (fun _ _ => 0) (tokens 32 34 spaces) := by
  rintro ⟨out', hsplit, -⟩
  have hlen : spaces.length = 65537 := by
    rw [spaces, List.length_append, List.length_replicate, List.length_singleton]
  obtain ⟨out'', hcount⟩ := splitString_count isString_spaces
    (List.ne_nil_of_length_pos (by omega)) (show (32 : UInt8) ≠ 34 by decide) (by omega)
    fun _ _ => 0
  have hlast : spaces.getLast? ≠ some 32 := by
    rw [spaces, List.getLast?_concat]
    decide
  have hd : delimiters 32 34 false spaces = 65536 :=
    delimiters_replicate (by decide) (by decide) (by decide) _
  rw [hcount, if_neg hlast, hd, Option.some.injEq, Prod.mk.injEq, tokens_spaces,
    List.length_append, List.length_replicate, List.length_singleton] at hsplit
  exact absurd hsplit.1 (by decide)

/-- The loop does not come to the end of `quotes`. -/
lemma quotes_not_yields :
    ¬ Yields 32 34 (fun n => quotes.getD n 0) (fun _ _ => 0) (tokens 32 34 quotes) := by
  rintro ⟨out', hsplit, -⟩
  rw [splitString_long isString_quotes (by rw [quotes, List.length_replicate])] at hsplit
  cases hsplit

/-- The tokens of `spaces` fit in as many buffers of 64 bytes, and the only token of `quotes`
fits in one, but neither string is split into its tokens. -/
theorem spaces_uncounted :
    (IsString (fun n => spaces.getD n 0) 0 spaces ∧ spaces.count 34 % 2 = 0 ∧
      Room 65537 (fun _ => 64) (tokens 32 34 spaces) ∧
      ¬ Yields 32 34 (fun n => spaces.getD n 0) (fun _ _ => 0) (tokens 32 34 spaces)) ∧
    (IsString (fun n => quotes.getD n 0) 0 quotes ∧ quotes.count 34 % 2 = 0 ∧
      Room 1 (fun _ => 64) (tokens 32 34 quotes) ∧
      ¬ Yields 32 34 (fun n => quotes.getD n 0) (fun _ _ => 0) (tokens 32 34 quotes)) := by
  refine ⟨⟨isString_spaces, ?_, room_of_all ?_ fun t ht => ?_, spaces_not_yields⟩,
    ⟨isString_quotes, ?_, room_of_all ?_ fun t ht => ?_, quotes_not_yields⟩⟩
  · rw [spaces, List.count_append, List.count_replicate]
    decide
  · rw [tokens_spaces, List.length_append, List.length_replicate, List.length_singleton]
  · rw [tokens_spaces, List.mem_append, List.mem_replicate, List.mem_singleton] at ht
    rcases ht with ⟨-, rfl⟩ | rfl <;> decide
  · rw [quotes, List.count_replicate_self]
    decide
  · rw [tokens_quotes]
    decide
  · rw [tokens_quotes, List.mem_singleton] at ht
    rw [ht]
    decide

end Mono98.Quoting
