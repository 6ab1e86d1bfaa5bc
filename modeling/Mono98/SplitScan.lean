import Mathlib.Data.List.Induction
import Mono98.Tokens

/-!
Where `split_string` stores, and what it counts.

A scan of the string keeps the pieces that an unquoted delimiter has ended, and the piece that
is being read. The two indices of `split_string` are the number of the former and the length of
the latter, and neither is held against the size of the table. The count that it returns comes
from another look at the last byte of the string, and that look does not know about the quotes.
-/

namespace Mono98.SplitScan

open Mono98.Strings Mono98.Tokens Mono98.Lib.Bytes Mono98.Lib.Word

/-! ### The stores -/

/-- Where the body of the loop stores for `str[j] = c`, as the pair of `i` and `k`. -/
def splitStore (delimiter escape : UInt8) (s : Split) (c : UInt8) : Option (ℕ × ℤ) :=
  let s := if c = escape then { s with escaped := !s.escaped, k := s.k - 1 } else s
  if c = delimiter ∧ s.escaped = false then some (s.i, s.k)
  else if c ≠ escape then some (s.i, s.k) else none

/-- The stores of the loop from `str[j]`. -/
def splitStoresFrom (str : ℕ → UInt8) (delimiter escape : UInt8) : ℕ → ℕ → Split → List (ℕ × ℤ)
  | 0, _, _ => []
  | n + 1, j, s =>
    if str j = 0 then []
    else (splitStore delimiter escape s (str j)).toList ++
      splitStoresFrom str delimiter escape n (j + 1) (splitByte delimiter escape s (str j))

def splitStores (str : ℕ → UInt8) (delimiter escape : UInt8) (out : ℕ → ℤ → UInt8) :
    List (ℕ × ℤ) :=
  splitStoresFrom str delimiter escape (2 ^ 31) 0 ⟨0, 0, false, out⟩

variable {str : ℕ → UInt8} {st : Split}

/-- The body of the loop changes the buffers where it stores and nowhere else. -/
lemma splitByte_out (d e : UInt8) (st : Split) (c : UInt8) {i : ℕ} {k : ℤ}
    (h : splitStore d e st c ≠ some (i, k)) : (splitByte d e st c).out i k = st.out i k := by
  have store_of_ne : ∀ (st : Split) (c : UInt8), (st.i, st.k) ≠ (i, k) →
      (st.store c).out i k = st.out i k := by
    intro st c hne
    rw [Split.store]
    by_cases hi : i = st.i
    · subst hi
      have hk : k ≠ st.k := fun hk => hne (by rw [hk])
      simp [hk]
    · simp [hi]
  unfold splitStore at h
  unfold splitByte
  by_cases hc : c = e
  · simp only [if_pos hc] at h ⊢
    split_ifs at h ⊢
    · exact store_of_ne _ _ fun he => h (congrArg some he)
    · exact absurd hc ‹_›
    · rfl
  · simp only [if_neg hc] at h ⊢
    split_ifs at h ⊢
    · exact store_of_ne _ _ fun he => h (congrArg some he)
    · exact store_of_ne _ _ fun he => h (congrArg some he)

lemma splitLoop_out {d e : UInt8} {n j : ℕ} {fin : Split} {i : ℕ} {k : ℤ}
    (h : splitLoop str d e n j st = some fin) (hn : (i, k) ∉ splitStoresFrom str d e n j st) :
    fin.out i k = st.out i k := by
  induction n generalizing j st with
  | zero => cases h
  | succ n ih =>
    rw [splitLoop] at h
    rw [splitStoresFrom] at hn
    split_ifs at h hn with h0
    · cases h
      rfl
    · rw [List.mem_append, Option.mem_toList, not_or] at hn
      rw [ih h hn.2]
      exact splitByte_out d e st _ hn.1

/-- **The stores** are all that a call of `split_string` does to the buffers. -/
theorem splitString_out {d e : UInt8} {out out' : ℕ → ℤ → UInt8} {n i : ℕ} {k : ℤ}
    (h : splitString str d e out = some (n, out')) (hn : (i, k) ∉ splitStores str d e out) :
    out' i k = out i k := by
  obtain ⟨fin, hloop, h⟩ := Option.bind_eq_some_iff.mp h
  obtain ⟨len, -, h⟩ := Option.map_eq_some_iff.mp h
  obtain ⟨-, rfl⟩ := Prod.mk.inj h
  exact splitLoop_out hloop hn

/-! ### The scan -/

variable (d e : UInt8)

/-- Whether a quote is open, the pieces ended, and the piece that is being read. -/
structure Scan where
  quoted : Bool
  ended : List (List UInt8)
  cur : List UInt8
  deriving DecidableEq

def Scan.byte (s : Scan) (c : UInt8) : Scan :=
  if c = e then { s with quoted := !s.quoted }
  else if c = d ∧ s.quoted = false then { s with ended := s.ended ++ [s.cur], cur := [] }
  else { s with cur := s.cur ++ [c] }

def scan (s : List UInt8) : Scan := s.foldl (Scan.byte d e) ⟨false, [], []⟩

@[simp] lemma scan_nil : scan d e [] = ⟨false, [], []⟩ := rfl

@[simp] lemma scan_snoc (s : List UInt8) (c : UInt8) :
    scan d e (s ++ [c]) = (scan d e s).byte d e c := by
  simp [scan]

/-- The variables of the loop are those of the scan. -/
structure Follows (st : Split) (sc : Scan) : Prop where
  i : st.i = sc.ended.length % 2 ^ 16
  k : st.k = sc.cur.length
  escaped : st.escaped = sc.quoted

variable {d e} {sc : Scan} {s : List UInt8} {c : UInt8}

lemma Scan.byte_escape : sc.byte d e e = { sc with quoted := !sc.quoted } := if_pos rfl

lemma Scan.byte_cut (hde : d ≠ e) (hq : sc.quoted = false) :
    sc.byte d e d = { sc with ended := sc.ended ++ [sc.cur], cur := [] } := by
  rw [Scan.byte, if_neg hde, if_pos ⟨rfl, hq⟩]

lemma Scan.byte_keep (hc : c ≠ e) (hcut : ¬ (c = d ∧ sc.quoted = false)) :
    sc.byte d e c = { sc with cur := sc.cur ++ [c] } := by
  rw [Scan.byte, if_neg hc, if_neg hcut]

/-- A byte is an escape character, an unquoted delimiter, or kept. -/
lemma Scan.byte_cases (d e : UInt8) (sc : Scan) (c : UInt8) :
    c = e ∨ c ≠ e ∧ (c = d ∧ sc.quoted = false) ∨ c ≠ e ∧ ¬ (c = d ∧ sc.quoted = false) := by
  tauto

/-- One round of the loop. -/
lemma Follows.byte (h : Follows st sc) (hde : d ≠ e) (c : UInt8) :
    Follows (splitByte d e st c) (sc.byte d e c) := by
  obtain ⟨hi, hk, hq⟩ := h
  rcases sc.byte_cases d e c with rfl | ⟨hc, rfl, hcut⟩ | ⟨hc, hcut⟩
  · rw [splitByte_escape hde, Scan.byte_escape]
    exact ⟨hi, by simpa using hk, by rw [hq]⟩
  · rw [splitByte_cut hde (hq.trans hcut), Scan.byte_cut hde hcut]
    refine ⟨?_, rfl, hcut.symm⟩
    simp only [List.length_append, List.length_singleton, hi, inc]
    omega
  · rw [Scan.byte_keep hc hcut, splitByte_keep hc (by rw [hq]; exact hcut)]
    exact ⟨hi, by simp [hk], hq⟩

/-- The store of one round. -/
lemma splitStore_eq (hde : d ≠ e) (h : Follows st sc) (c : UInt8) : splitStore d e st c =
    if c = e then none else some (sc.ended.length % 2 ^ 16, (sc.cur.length : ℤ)) := by
  obtain ⟨hi, hk, -⟩ := h
  rw [← hi, ← hk]
  unfold splitStore
  by_cases hc : c = e
  · subst hc
    simp [hde.symm]
  · simp only [if_neg hc, if_pos hc]
    split_ifs <;> rfl

/-! ### The whole string -/

/-- The stores of the loop, for the bytes of a list. -/
def storesOf (d e : UInt8) : Split → List UInt8 → List (ℕ × ℤ)
  | _, [] => []
  | st, c :: s => (splitStore d e st c).toList ++ storesOf d e (splitByte d e st c) s

lemma storesOf_snoc (d e : UInt8) (st : Split) (s : List UInt8) (c : UInt8) :
    storesOf d e st (s ++ [c]) =
      storesOf d e st s ++ (splitStore d e (s.foldl (splitByte d e) st) c).toList := by
  induction s generalizing st with
  | nil => simp [storesOf]
  | cons b s ih => simp [storesOf, ih]

lemma splitStoresFrom_eq (hs : IsString str 0 s) (d e : UInt8) (n j : ℕ) (hj : j ≤ s.length)
    (hn : s.length < n + j) (st : Split) :
    splitStoresFrom str d e n j st = storesOf d e st (s.drop j) := by
  induction n generalizing j st with
  | zero => omega
  | succ n ih =>
    rw [splitStoresFrom]
    rcases hs.cases_at hj with ⟨hlt, h0, hc⟩ | ⟨rfl, hend⟩
    · rw [if_neg h0, ih (j + 1) hlt (by omega), List.drop_eq_getElem_cons hlt, storesOf, hc]
    · rw [if_pos hend, List.drop_length]
      rfl

lemma splitStores_eq (hs : IsString str 0 s) (hlen : s.length < 2 ^ 31) (d e : UInt8)
    (out : ℕ → ℤ → UInt8) :
    splitStores str d e out = storesOf d e ⟨0, 0, false, out⟩ s :=
  splitStoresFrom_eq hs d e _ 0 (Nat.zero_le _) hlen _

lemma follows_fold (hde : d ≠ e) (out : ℕ → ℤ → UInt8) (s : List UInt8) :
    Follows (s.foldl (splitByte d e) ⟨0, 0, false, out⟩) (scan d e s) := by
  induction s using List.reverseRecOn with
  | nil => exact ⟨rfl, rfl, rfl⟩
  | append_singleton s c ih =>
    rw [List.foldl_append, scan_snoc]
    exact ih.byte hde c

lemma ended_le (d e : UInt8) (s : List UInt8) : (scan d e s).ended.length ≤ s.length := by
  induction s using List.reverseRecOn with
  | nil => exact Nat.le_refl _
  | append_singleton s c ih =>
    rw [scan_snoc, List.length_append, List.length_singleton]
    unfold Scan.byte
    split_ifs
    · exact Nat.le_succ_of_le ih
    · simpa using ih
    · exact Nat.le_succ_of_le ih

/-! ### The table -/

/-- The pieces fit in a table of `rows` buffers of `width` bytes: those that are ended with a
terminator, and one that is not without. A piece behind the last buffer has to be empty. -/
structure FitsTable (rows width : ℕ) (sc : Scan) : Prop where
  ended : ∀ p ∈ sc.ended, p.length < width
  cur : sc.cur.length ≤ width
  count : sc.ended.length ≤ rows
  full : sc.ended.length = rows → sc.cur = []

/-- Every store is in a table of `rows` buffers of `width` bytes. -/
def InTable (rows width : ℕ) (stores : List (ℕ × ℤ)) : Prop :=
  ∀ p ∈ stores, p.1 < rows ∧ 0 ≤ p.2 ∧ p.2 < width

variable {rows width : ℕ}

lemma inTable_append {ps qs : List (ℕ × ℤ)} :
    InTable rows width (ps ++ qs) ↔ InTable rows width ps ∧ InTable rows width qs :=
  List.forall_mem_append

lemma inTable_nil : InTable rows width [] := fun _ h => by cases h

/-- The pieces go on fitting exactly when the next store is in the table. -/
lemma fitsTable_byte (hde : d ≠ e) (h : Follows st sc) (hi : sc.ended.length < 2 ^ 16) (c : UInt8) :
    FitsTable rows width (sc.byte d e c) ↔
      FitsTable rows width sc ∧ InTable rows width (splitStore d e st c).toList := by
  rw [splitStore_eq hde h, Nat.mod_eq_of_lt hi]
  have hstore : InTable rows width [(sc.ended.length, (sc.cur.length : ℤ))] ↔
      sc.ended.length < rows ∧ sc.cur.length < width := by
    simp [InTable]
  rcases sc.byte_cases d e c with rfl | ⟨hc, rfl, hcut⟩ | ⟨hc, hcut⟩
  · rw [if_pos rfl, Scan.byte_escape]
    exact ⟨fun ⟨h1, h2, h3, h4⟩ => ⟨⟨h1, h2, h3, h4⟩, inTable_nil⟩,
      fun ⟨⟨h1, h2, h3, h4⟩, _⟩ => ⟨h1, h2, h3, h4⟩⟩
  · rw [if_neg hc, Option.toList_some, hstore, Scan.byte_cut hde hcut]
    constructor
    · rintro ⟨hend, -, hcount, -⟩
      simp only [List.mem_append, List.mem_singleton, List.length_append,
        List.length_singleton] at hend hcount
      have hcur := hend sc.cur (Or.inr rfl)
      exact ⟨⟨fun p hp => hend p (Or.inl hp), by omega, by omega, fun hfull => by omega⟩,
        by omega, hcur⟩
    · rintro ⟨⟨hend, -, -, -⟩, hlt, hcur⟩
      have hcount : (sc.ended ++ [sc.cur]).length ≤ rows := by
        rw [List.length_append, List.length_singleton]
        exact hlt
      refine ⟨fun p hp => ?_, Nat.zero_le _, hcount, fun _ => rfl⟩
      rcases List.mem_append.mp hp with hp | hp
      · exact hend p hp
      · rw [List.mem_singleton.mp hp]
        exact hcur
  · rw [if_neg hc, Option.toList_some, hstore, Scan.byte_keep hc hcut]
    constructor
    · rintro ⟨hend, hcur, hcount, hfull⟩
      simp only [List.length_append, List.length_singleton] at hend hcur hcount hfull
      have hne : sc.ended.length ≠ rows := fun he => by simpa using hfull he
      exact ⟨⟨hend, by omega, hcount, fun he => absurd he hne⟩, by omega, by omega⟩
    · rintro ⟨⟨hend, -, hcount, -⟩, hlt, hcur⟩
      have hcur : (sc.cur ++ [c]).length ≤ width := by
        rw [List.length_append, List.length_singleton]
        exact hcur
      exact ⟨hend, hcur, hcount, fun he => absurd he (Nat.ne_of_lt hlt)⟩

/-- **The stores of a string** are in the table exactly when its pieces fit. -/
lemma inTable_storesOf (hde : d ≠ e) (out : ℕ → ℤ → UInt8) (hlen : s.length < 2 ^ 16) :
    InTable rows width (storesOf d e ⟨0, 0, false, out⟩ s) ↔ FitsTable rows width (scan d e s) := by
  induction s using List.reverseRecOn with
  | nil =>
    exact ⟨fun _ => ⟨fun p hp => (by cases hp), Nat.zero_le _, Nat.zero_le _, fun _ => rfl⟩,
      fun _ => inTable_nil⟩
  | append_singleton s c ih =>
    rw [List.length_append, List.length_singleton] at hlen
    have hi : (scan d e s).ended.length < 2 ^ 16 :=
      Nat.lt_of_le_of_lt (ended_le d e s) (by omega)
    rw [storesOf_snoc, inTable_append, ih (by omega), scan_snoc,
      fitsTable_byte hde (follows_fold hde out s) hi]

/-- **The argument table**: what `handle_command` stores into the arguments of a program is
within the 32 buffers of 64 bytes exactly when the pieces of the command fit there. -/
theorem arguments_in_table {command : ℕ → UInt8} (hs : IsString command 0 s)
    (hlen : s.length ≤ 255) (out : ℕ → ℤ → UInt8) :
    InTable 32 64 (splitStores command 32 34 out) ↔ FitsTable 32 64 (scan 32 34 s) := by
  rw [splitStores_eq hs (by omega)]
  exact inTable_storesOf (by decide) out (by omega)

/-- Two letters with a space between them. -/
theorem arguments_in_table_two :
    InTable 32 64 (splitStores (fun n => [65, 32, 66].getD n 0) 32 34 fun _ _ => 0) := by
  refine (arguments_in_table (isString_getD (by simp)) (by decide) _).mpr ?_
  have hscan : scan 32 34 [65, 32, 66] = ⟨false, [[65]], [66]⟩ := rfl
  rw [hscan]
  exact ⟨by decide, by decide, by decide, by decide⟩

/-- The last of 65 letters is stored behind its buffer. -/
theorem long_argument_outside :
    ¬ InTable 32 64
      (splitStores (fun n => (List.replicate 65 65).getD n 0) 32 34 fun _ _ => 0) := by
  rw [splitStores_eq (isString_getD fun c hc => by rw [List.eq_of_mem_replicate hc]; decide)
    (by simp), inTable_storesOf (by decide) _ (by simp)]
  intro h
  exact absurd h.cur (by decide)

/-! ### The count -/

/-- The number of unquoted delimiters, with a quote open before the string or not. -/
def delimiters (d e : UInt8) : Bool → List UInt8 → ℕ
  | _, [] => 0
  | quoted, c :: s =>
    if c = e then delimiters d e (!quoted) s
    else if c = d ∧ quoted = false then delimiters d e quoted s + 1
    else delimiters d e quoted s

/-- The last byte of the string is a delimiter, behind an even number of escape characters. -/
def EndsUnquoted (d e : UInt8) (s : List UInt8) : Prop := s.getLast? = some d ∧ s.count e % 2 = 0

/-- The same, behind an odd number of them. -/
def EndsQuoted (d e : UInt8) (s : List UInt8) : Prop := s.getLast? = some d ∧ s.count e % 2 = 1

instance (d e : UInt8) (s : List UInt8) : Decidable (EndsUnquoted d e s) :=
  inferInstanceAs (Decidable (_ ∧ _))

/-- The number of arguments: one more than unquoted delimiters, but one for a delimiter at the
end. -/
def argumentCount (d e : UInt8) (s : List UInt8) : ℕ :=
  delimiters d e false s + 1 - if EndsUnquoted d e s then 1 else 0

/-- The call comes back with the number of arguments, and stores to no buffer beyond it. -/
def CountsAll (str : ℕ → UInt8) (d e : UInt8) (s : List UInt8) (out : ℕ → ℤ → UInt8) : Prop :=
  (∃ out', splitString str d e out = some (argumentCount d e s, out')) ∧
    ∀ p ∈ splitStores str d e out, p.1 < argumentCount d e s

lemma ended_length (d e : UInt8) (sc : Scan) (s : List UInt8) :
    (s.foldl (Scan.byte d e) sc).ended.length = sc.ended.length + delimiters d e sc.quoted s := by
  induction s generalizing sc with
  | nil => rfl
  | cons c s ih =>
    rw [List.foldl_cons, ih, delimiters, Scan.byte]
    split_ifs with hc hcut
    · rfl
    · simp only [List.length_append, List.length_singleton]
      omega
    · rfl

lemma scan_quoted (d e : UInt8) (s : List UInt8) :
    (scan d e s).quoted = true ↔ s.count e % 2 = 1 := by
  induction s using List.reverseRecOn with
  | nil => simp
  | append_singleton s c ih =>
    rw [scan_snoc, List.count_append, Scan.byte]
    split_ifs with hc hcut
    · subst hc
      rw [List.count_singleton_self]
      cases hq : (scan d c s).quoted <;> simp [hq] at ih ⊢ <;> omega
    · rw [List.count_singleton, if_neg (by simpa using hc)]
      exact ih
    · rw [List.count_singleton, if_neg (by simpa using hc)]
      exact ih

/-- Behind an unquoted delimiter no piece has been begun. -/
lemma EndsUnquoted.cur (h : EndsUnquoted d e s) (hde : d ≠ e) : (scan d e s).cur = [] := by
  obtain ⟨hlast, heven⟩ := h
  obtain ⟨pre, rfl⟩ := List.getLast?_eq_some_iff.mp hlast
  have hq : (scan d e pre).quoted = false := by
    rw [List.count_append, List.count_singleton, if_neg (by simpa using hde)] at heven
    rw [← Bool.not_eq_true, scan_quoted]
    omega
  rw [scan_snoc, Scan.byte_cut hde hq]

/-- The buffers that are stored to are those of the pieces. -/
lemma storesOf_lt (hde : d ≠ e) (out : ℕ → ℤ → UInt8) (s : List UInt8) :
    ∀ p ∈ storesOf d e ⟨0, 0, false, out⟩ s,
      p.1 < (scan d e s).ended.length + if (scan d e s).cur = [] then 0 else 1 := by
  induction s using List.reverseRecOn with
  | nil => intro p hp; cases hp
  | append_singleton s c ih =>
    intro p hp
    have hle : (scan d e s).ended.length % 2 ^ 16 ≤ (scan d e s).ended.length := Nat.mod_le _ _
    rw [storesOf_snoc, splitStore_eq hde (follows_fold hde out s), List.mem_append] at hp
    rw [scan_snoc]
    rcases (scan d e s).byte_cases d e c with rfl | ⟨hc, rfl, hcut⟩ | ⟨hc, hcut⟩
    · rw [Scan.byte_escape]
      rw [if_pos rfl] at hp
      exact ih p (hp.resolve_right fun h => by cases h)
    · rw [Scan.byte_cut hde hcut]
      simp only [List.length_append, List.length_singleton, if_true, Nat.add_zero]
      rcases hp with hp | hp
      · have := ih p hp
        split_ifs at this <;> omega
      · rw [if_neg hc, Option.toList_some, List.mem_singleton] at hp
        rw [hp]
        exact Nat.lt_succ_of_le hle
    · rw [Scan.byte_keep hc hcut]
      simp only [List.append_eq_nil_iff, List.cons_ne_nil, and_false, if_false]
      rcases hp with hp | hp
      · have := ih p hp
        split_ifs at this <;> omega
      · rw [if_neg hc, Option.toList_some, List.mem_singleton] at hp
        rw [hp]
        exact Nat.lt_succ_of_le hle

/-- A string that the index of the loop cannot reach the end of. -/
lemma splitString_long (hs : IsString str 0 s) (hlen : 2 ^ 31 ≤ s.length) (d e : UInt8)
    (out : ℕ → ℤ → UInt8) : splitString str d e out = none := by
  have key : ∀ n j st, n + j ≤ s.length → splitLoop str d e n j st = none := by
    intro n
    induction n with
    | zero => exact fun _ _ _ => rfl
    | succ n ih =>
      intro j st hj
      rcases hs.cases_at (show j ≤ s.length by omega) with ⟨-, h0, -⟩ | ⟨he, -⟩
      · rw [splitLoop, if_neg h0]
        exact ih (j + 1) _ (by omega)
      · omega
  rw [splitString, key (2 ^ 31) 0 _ hlen]
  rfl

/-- The number that the call returns. -/
lemma splitString_count (hs : IsString str 0 s) (hne : s ≠ []) (hde : d ≠ e)
    (hlen : s.length < 2 ^ 31) (out : ℕ → ℤ → UInt8) : ∃ out', splitString str d e out =
      some (if s.getLast? = some d then delimiters d e false s % 2 ^ 16
        else (delimiters d e false s + 1) % 2 ^ 16, out') := by
  have hi := (follows_fold hde out s).i
  rw [scan, ended_length, List.length_nil, Nat.zero_add] at hi
  refine ⟨(s.foldl (splitByte d e) ⟨0, 0, false, out⟩).out, ?_⟩
  rw [splitString_eq hs hne hlen, hi, inc, Nat.mod_add_mod]

/-- **The count of the arguments** is right, and covers every argument that is written, exactly
when the string does not end in a quoted delimiter, and is not too long to be counted. -/
theorem arguments_counted (hs : IsString str 0 s) (hne : s ≠ []) (hde : d ≠ e)
    (out : ℕ → ℤ → UInt8) : CountsAll str d e s out ↔
      ¬ EndsQuoted d e s ∧ argumentCount d e s < 2 ^ 16 ∧ s.length < 2 ^ 31 := by
  constructor
  · rintro ⟨⟨out', hsplit⟩, -⟩
    have hlen : s.length < 2 ^ 31 := Nat.lt_of_not_le fun hge => by
      rw [splitString_long hs hge] at hsplit
      cases hsplit
    obtain ⟨out'', hcount⟩ := splitString_count hs hne hde hlen out
    rw [hsplit, Option.some.injEq, Prod.mk.injEq] at hcount
    have hn := hcount.1
    refine ⟨fun hq => ?_, ?_, hlen⟩
    · -- the last delimiter is no end of an argument, but is taken for one
      have hu : ¬ EndsUnquoted d e s := fun hu => by
        have := hq.2
        have := hu.2
        omega
      rw [if_pos hq.1, argumentCount, if_neg hu] at hn
      omega
    · split_ifs at hn <;> omega
  · rintro ⟨hq, hn, hlen⟩
    obtain ⟨out', hcount⟩ := splitString_count hs hne hde hlen out
    have hended : (scan d e s).ended.length = delimiters d e false s := by
      rw [scan, ended_length, List.length_nil, Nat.zero_add]
    have hstores := storesOf_lt hde out s
    rw [hended, ← splitStores_eq hs hlen] at hstores
    by_cases hu : EndsUnquoted d e s
    · rw [argumentCount, if_pos hu, Nat.add_sub_cancel] at hn
      rw [if_pos hu.1, Nat.mod_eq_of_lt hn] at hcount
      rw [if_pos (hu.cur hde)] at hstores
      have hargs : argumentCount d e s = delimiters d e false s := by
        rw [argumentCount, if_pos hu, Nat.add_sub_cancel]
      exact ⟨⟨out', by rw [hcount, hargs]⟩, fun p hp => by rw [hargs]; exact hstores p hp⟩
    · rw [argumentCount, if_neg hu, Nat.sub_zero] at hn
      -- a string that does not end in an unquoted delimiter does not end in a delimiter
      have hlast : s.getLast? ≠ some d := fun hlast => by
        rcases Nat.mod_two_eq_zero_or_one (s.count e) with h0 | h1
        · exact hu ⟨hlast, h0⟩
        · exact hq ⟨hlast, h1⟩
      rw [if_neg hlast, Nat.mod_eq_of_lt hn] at hcount
      have hargs : argumentCount d e s = delimiters d e false s + 1 := by
        rw [argumentCount, if_neg hu, Nat.sub_zero]
      refine ⟨⟨out', by rw [hcount, hargs]⟩, fun p hp => ?_⟩
      have := hstores p hp
      rw [hargs]
      split_ifs at this <;> omega

/-- Two letters with a space between them are two arguments. -/
theorem arguments_counted_two :
    CountsAll (fun n => [65, 32, 66].getD n 0) 32 34 [65, 32, 66] fun _ _ => 0 :=
  (arguments_counted (isString_getD (by simp)) (by decide) (by decide) _).mpr
    ⟨by unfold EndsQuoted; decide, Nat.lt_of_le_of_lt (show _ ≤ 2 by decide) (by simp), by simp⟩

/-- A quote, a letter and a space: the letter is an argument, but none is counted. -/
theorem quoted_space_uncounted :
    ¬ CountsAll (fun n => [34, 97, 32].getD n 0) 32 34 [34, 97, 32] fun _ _ => 0 := by
  rintro ⟨⟨out', hsplit⟩, -⟩
  obtain ⟨out'', hcount⟩ := splitString_count (isString_getD (s := [34, 97, 32]) (by simp))
    (by decide) (show (32 : UInt8) ≠ 34 by decide) (by simp) fun _ _ => 0
  rw [hcount, Option.some.injEq, Prod.mk.injEq] at hsplit
  exact absurd hsplit.1 (by decide)

end Mono98.SplitScan
