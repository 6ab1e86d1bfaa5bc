import Mono98.Strings

/-!
The quoting tokenizer, and `split_string` as an implementation of it.

The tokenizer toggles quoting at every escape character and drops it, cuts at every unquoted
delimiter, and adds no empty token behind a delimiter that ends the string. `split_string`
leaves its last piece without a terminator, and so the buffers have to be filled with zeros
before it is called.
-/

namespace Mono98.Tokens

open Mono98.Strings Mono98.Lib.Bytes Mono98.Lib.Word

variable (d e : UInt8)

/-- The tokens of a string, with what has been read of the first of them. -/
def tokensFrom : Bool → List UInt8 → List UInt8 → List (List UInt8)
  | _, cur, [] => [cur]
  | quoted, cur, c :: s =>
    if c = e then tokensFrom (!quoted) cur s
    else if c = d ∧ quoted = false then cur :: (if s = [] then [] else tokensFrom quoted [] s)
    else tokensFrom quoted (cur ++ [c]) s

def tokens (s : List UInt8) : List (List UInt8) := tokensFrom d e false [] s

/-- The quotes that are open before the string are closed by it. -/
def Closes (quoted : Bool) (s : List UInt8) : Prop := s.count e % 2 = quoted.toNat

/-- The first bytes of a buffer of `size` bytes, and zeros behind them. -/
structure Fills (size : ℕ) (buf : ℤ → UInt8) (cur : List UInt8) : Prop where
  stands : Stands (fun n => buf n) 0 cur
  zeros : ∀ n : ℕ, cur.length ≤ n → n < size → buf n = 0

/-- The first bytes of a buffer of 64 bytes, and zeros behind them. -/
def Filled (buf : ℤ → UInt8) (cur : List UInt8) : Prop := Fills 64 buf cur

variable {d e} {st : Split} {cur s : List UInt8} {c : UInt8} {size : ℕ}

lemma Fills.isString {buf : ℤ → UInt8} (h : Fills size buf cur) (hlen : cur.length < size)
    (h0 : ∀ c ∈ cur, c ≠ 0) : IsString (fun n => buf n) 0 cur :=
  ⟨h.stands, h0, h.zeros _ (by omega) (by omega)⟩

/-- Storing the next byte of a piece. -/
lemma Fills.snoc (h : Fills size (st.out st.i) cur) (hk : st.k = cur.length) (c : UInt8) :
    Fills size ((st.store c).out (st.store c).i) (cur ++ [c]) := by
  have hbuf : (st.store c).out (st.store c).i = Function.update (st.out st.i) st.k c := by
    simp [Split.store]
  rw [hbuf, hk]
  refine ⟨stands_append.mpr ⟨fun n hn => ?_, fun n hn => ?_⟩, fun n hn hlt => ?_⟩
  · have hne : ((0 + n : ℕ) : ℤ) ≠ cur.length := by omega
    simp only [Function.update_of_ne hne]
    exact h.stands n hn
  · simp only [List.length_singleton, Nat.lt_one_iff] at hn
    subst hn
    simp
  · simp only [List.length_append, List.length_singleton] at hn
    have hne : (n : ℤ) ≠ cur.length := by omega
    simp only [Function.update_of_ne hne]
    exact h.zeros n (by omega) hlt

/-- Terminating a piece. -/
lemma Fills.terminate (h : Fills size (st.out st.i) cur) (hk : st.k = cur.length)
    (h0 : ∀ c ∈ cur, c ≠ 0) : IsString (fun n : ℕ => (st.store 0).out st.i n) 0 cur := by
  have hs := (h.snoc hk 0).stands
  obtain ⟨h₁, h₂⟩ := stands_append.mp hs
  exact ⟨h₁, h0, h₂ 0 (by simp)⟩

lemma closes_cons_escape {quoted : Bool} (h : Closes e quoted (e :: s)) :
    Closes e (!quoted) s := by
  unfold Closes at *
  rw [List.count_cons_self] at h
  cases quoted <;> simp at * <;> omega

lemma closes_cons {quoted : Bool} (hc : c ≠ e) (h : Closes e quoted (c :: s)) :
    Closes e quoted s := by
  unfold Closes at *
  rwa [List.count_cons_of_ne hc] at h

/-! ### One byte -/

lemma splitByte_escape (hde : d ≠ e) :
    splitByte d e st e = { st with escaped := !st.escaped, k := st.k - 1 + 1 } := by
  simp [splitByte, hde.symm]

lemma splitByte_cut (hde : d ≠ e) (hq : st.escaped = false) :
    splitByte d e st d = ⟨inc 16 st.i, 0, false, (st.store 0).out⟩ := by
  simp [splitByte, hde, hq, Split.store]

lemma splitByte_keep (hc : c ≠ e) (hcut : ¬ (c = d ∧ st.escaped = false)) :
    splitByte d e st c = { st.store c with k := st.k + 1 } := by
  simp only [splitByte, if_neg hc, if_neg hcut, if_pos hc]
  rfl

/-! ### The whole string -/

/-- The pieces written so far are left alone, the pieces of the rest are written, and the
count is one short when the last piece has not been cut off. -/
structure Splits (d : UInt8) (st fin : Split) (ts : List (List UInt8)) (s : List UInt8) :
    Prop where
  before : ∀ i < st.i, fin.out i = st.out i
  pieces : ∀ i (hi : i < ts.length), IsString (fun n : ℕ => fin.out (st.i + i) n) 0 ts[i]
  count : st.i + ts.length = if s.getLast? = some d then fin.i else fin.i + 1

lemma getLast?_cons_of_ne {c : UInt8} {s : List UInt8} (h : s ≠ []) :
    (c :: s).getLast? = s.getLast? := by
  cases s with
  | nil => exact absurd rfl h
  | cons b s => rfl

/-- What is written from a state on that has the pieces and the index of another. -/
lemma Splits.of_same {st st' fin : Split} {ts : List (List UInt8)} {c : UInt8}
    (h : Splits d st' fin ts s) (hi : st'.i = st.i) (ho : ∀ i < st.i, st'.out i = st.out i)
    (hs : s = [] → c ≠ d) : Splits d st fin ts (c :: s) where
  before i hlt := by rw [h.before i (hi ▸ hlt), ho i hlt]
  pieces i hlt := by rw [← hi]; exact h.pieces i hlt
  count := by
    have hc := h.count
    rw [hi] at hc
    rw [hc]
    by_cases h0 : s = []
    · subst h0
      have hne : (some c : Option UInt8) ≠ some d := fun he => hs rfl (Option.some.inj he)
      rw [List.getLast?_singleton, if_neg hne, List.getLast?_nil, if_neg (by simp)]
    · rw [getLast?_cons_of_ne h0]

/-- A piece that has been cut off, and the pieces behind it. -/
lemma Splits.of_cut {st st' fin : Split} {ts : List (List UInt8)} {cur : List UInt8}
    (h : Splits d st' fin ts s) (h0 : s ≠ []) (hi : st'.i = st.i + 1)
    (ho : ∀ i < st.i, st'.out i = st.out i) (hcur : IsString (fun n : ℕ => st'.out st.i n) 0 cur) :
    Splits d st fin (cur :: ts) (d :: s) where
  before i hlt := by rw [h.before i (by omega), ho i hlt]
  pieces i hlt := by
    cases i with
    | zero =>
      simp only [Nat.add_zero, h.before st.i (by omega)]
      exact hcur
    | succ i =>
      have hp := h.pieces i (by simpa using hlt)
      rw [hi, Nat.add_right_comm] at hp
      exact hp
  count := by
    rw [getLast?_cons_of_ne h0, ← h.count, hi, List.length_cons]
    omega

lemma tokensFrom_pos (d e : UInt8) (quoted : Bool) (cur s : List UInt8) :
    0 < (tokensFrom d e quoted cur s).length := by
  induction s generalizing quoted cur with
  | nil => exact Nat.one_pos
  | cons c s ih =>
    rw [tokensFrom]
    split_ifs
    · exact ih _ _
    · exact Nat.one_pos
    · exact Nat.succ_pos _
    · exact ih _ _

lemma store_out_of_ne (st : Split) (c : UInt8) {i : ℕ} (h : i ≠ st.i) :
    (st.store c).out i = st.out i := by
  simp [Split.store, h]

/-- The rest of the string, by its first byte. There are `n` buffers. -/
lemma fold_splits {n : ℕ} (hn : n ≤ 65535) (size : ℕ → ℕ) (hde : d ≠ e) (st : Split)
    (cur : List UInt8) (hcl : Closes e st.escaped s) (hk : st.k = cur.length)
    (hf : Fills (size st.i) (st.out st.i) cur)
    (hz : ∀ i, st.i < i → i < n → Fills (size i) (st.out i) []) (h0 : ∀ c ∈ cur ++ s, c ≠ 0)
    (hcount : st.i + (tokensFrom d e st.escaped cur s).length ≤ n)
    (hlen : ∀ i (hi : i < (tokensFrom d e st.escaped cur s).length),
      (tokensFrom d e st.escaped cur s)[i].length < size (st.i + i)) :
    Splits d st (s.foldl (splitByte d e) st) (tokensFrom d e st.escaped cur s) s := by
  induction s generalizing st cur with
  | nil =>
    refine ⟨fun _ _ => rfl, fun i hi => ?_, rfl⟩
    obtain rfl : i = 0 := by simpa [tokensFrom] using hi
    exact hf.isString (hlen 0 (by simp [tokensFrom])) fun c hc => h0 c (by simp [hc])
  | cons c s ih =>
    rw [List.foldl_cons]
    by_cases hc : c = e
    · -- an escape character only toggles
      subst hc
      rw [splitByte_escape hde]
      simp only [tokensFrom, if_true] at hcount hlen ⊢
      exact (ih { st with escaped := !st.escaped, k := st.k - 1 + 1 } cur
        (closes_cons_escape hcl) (by simpa using hk) hf hz
        (fun b hb => h0 b (by simp at hb ⊢; tauto)) hcount hlen).of_same rfl (fun _ _ => rfl)
        fun _ => hde.symm
    · have hcl' := closes_cons hc hcl
      by_cases hcut : c = d ∧ st.escaped = false
      · -- an unquoted delimiter ends the piece
        obtain ⟨rfl, hq⟩ := hcut
        have hcur := hf.terminate hk fun b hb => h0 b (by simp [hb])
        rw [splitByte_cut hde hq]
        simp only [tokensFrom, if_neg hde, hq, and_self, if_true] at hcount hlen ⊢
        by_cases hs : s = []
        · subst hs
          have hi : inc 16 st.i = st.i + 1 := inc_of_lt (by simp at hcount; omega)
          simp only [if_true, List.foldl_nil, hi]
          refine ⟨fun i hlt => store_out_of_ne st 0 (by omega), fun i hlt => ?_, by simp⟩
          obtain rfl : i = 0 := by simpa using hlt
          exact hcur
        · simp only [if_neg hs, List.length_cons] at hcount hlen ⊢
          have hi : inc 16 st.i = st.i + 1 := inc_of_lt (by omega)
          have hpos := tokensFrom_pos c e false [] s
          have hnil : ∀ i, st.i < i → i < n → Fills (size i) ((st.store 0).out i) [] :=
            fun i hlt hin => by
              rw [store_out_of_ne st 0 (by omega)]
              exact hz i hlt hin
          rw [hi]
          have key := ih ⟨st.i + 1, 0, false, (st.store 0).out⟩ [] (hq ▸ hcl')
            rfl (hnil _ (by simp) (by simp only; omega))
            (fun i hlt => hnil i (Nat.lt_of_succ_lt hlt)) (fun b hb => h0 b ?_) ?_ fun i hi => ?_
          · exact key.of_cut hs rfl (fun i hlt => store_out_of_ne st 0 (by omega)) hcur
          · simp at hb ⊢
            exact Or.inr (Or.inr hb)
          · simp only
            omega
          · have ht := hlen (i + 1) (Nat.succ_lt_succ hi)
            rw [← Nat.add_assoc, Nat.add_right_comm] at ht
            exact ht
      · -- any other byte is stored
        rw [splitByte_keep hc hcut]
        simp only [tokensFrom, if_neg hc, if_neg hcut] at hcount hlen ⊢
        have key := ih { st.store c with k := st.k + 1 } (cur ++ [c]) hcl'
          (by simp [hk]) (hf.snoc hk c) (fun i hlt hin => ?_) (fun b hb => h0 b ?_) hcount hlen
        · refine key.of_same rfl (fun i hlt => store_out_of_ne st c (by omega)) fun hs hd => ?_
          -- at the end of the string every quote has been closed
          subst hs hd
          cases hq : st.escaped with
          | false => exact hcut ⟨rfl, hq⟩
          | true => rw [hq] at hcl'; cases hcl'
        · have hlt : st.i < i := hlt
          show Fills (size i) ((st.store c).out i) []
          rw [store_out_of_ne st c (by omega)]
          exact hz i hlt hin
        · simpa using hb

/-- The call of `split_string` on a string is a fold over its bytes. -/
lemma splitString_eq {str : ℕ → UInt8} (hs : IsString str 0 s) (hne : s ≠ [])
    (hsize : s.length < 2 ^ 31) (d e : UInt8) (out : ℕ → ℤ → UInt8) :
    splitString str d e out =
      some (if s.getLast? = some d then (s.foldl (splitByte d e) ⟨0, 0, false, out⟩).i
        else inc 16 (s.foldl (splitByte d e) ⟨0, 0, false, out⟩).i,
        (s.foldl (splitByte d e) ⟨0, 0, false, out⟩).out) := by
  have hloop := splitLoop_eq hs d e (2 ^ 31) 0 (Nat.zero_le _) hsize ⟨0, 0, false, out⟩
  have hpos := List.length_pos_iff.mpr hne
  have hlast : str (dec 32 s.length) = d ↔ s.getLast? = some d := by
    have hl := hs.stands (s.length - 1) (by omega)
    rw [Nat.zero_add] at hl
    rw [dec_of_pos hpos, hl, List.getLast?_eq_getElem?, List.getElem?_eq_getElem (by omega),
      Option.some.injEq]
  rw [splitString, hloop, strlen_spec hs hne (by omega), Option.bind_some, Option.map_some,
    List.drop_zero]
  simp only [hlast]

/-- Splitting a string with every quote closed, into buffers of zeros that its tokens fit in. -/
lemma splitString_fits {str : ℕ → UInt8} (hs : IsString str 0 s) (hne : s ≠ []) (hde : d ≠ e)
    (hcl : Closes e false s) (hsize : s.length < 2 ^ 31) {n : ℕ} (hn : n ≤ 65535) (size : ℕ → ℕ)
    (hcount : (tokens d e s).length ≤ n)
    (hlen : ∀ i (hi : i < (tokens d e s).length), (tokens d e s)[i].length < size i)
    {out : ℕ → ℤ → UInt8} (hout : ∀ i < n, Fills (size i) (out i) []) :
    ∃ out', splitString str d e out = some ((tokens d e s).length, out') ∧
      ∀ i (hi : i < (tokens d e s).length),
        IsString (fun n : ℕ => out' i n) 0 (tokens d e s)[i] := by
  have hpos : 0 < (tokens d e s).length := tokensFrom_pos d e false [] s
  have hfold := fold_splits hn size hde ⟨0, 0, false, out⟩ [] hcl rfl
    (hout 0 (by omega)) (fun i _ hi => hout i hi) (fun c hc => hs.nonzero c (by simpa using hc))
    (by rwa [Nat.zero_add]) fun i hi => by
      simp only [Nat.zero_add]
      exact hlen i hi
  refine ⟨(s.foldl (splitByte d e) ⟨0, 0, false, out⟩).out, ?_, fun i hi => ?_⟩
  · rw [splitString_eq hs hne hsize]
    have hc := hfold.count
    simp only [Nat.zero_add] at hc
    split_ifs at hc ⊢ with hd
    · rw [tokens, hc]
    · rw [inc_of_lt (by unfold tokens at hcount; omega), tokens, hc]
  · have hp := hfold.pieces i hi
    simp only [Nat.zero_add] at hp
    exact hp

/-- **Splitting a string**: with every quote closed, and buffers of zeros for the tokens, the
pieces are the tokens, each with a terminator. -/
theorem splitString_spec {str : ℕ → UInt8} (hs : IsString str 0 s) (hne : s ≠ []) (hde : d ≠ e)
    (hcl : Closes e false s) (hsize : s.length < 2 ^ 31) (hcount : (tokens d e s).length ≤ 32)
    (hlen : ∀ t ∈ tokens d e s, t.length ≤ 63) {out : ℕ → ℤ → UInt8}
    (hout : ∀ i < 32, Filled (out i) []) :
    ∃ out', splitString str d e out = some ((tokens d e s).length, out') ∧
      ∀ i (hi : i < (tokens d e s).length),
        IsString (fun n : ℕ => out' i n) 0 (tokens d e s)[i] :=
  splitString_fits hs hne hde hcl hsize (by decide) (fun _ => 64) hcount
    (fun _ hi => Nat.lt_succ_of_le (hlen _ (List.getElem_mem hi))) hout

end Mono98.Tokens
