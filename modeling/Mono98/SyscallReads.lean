import Mono98.Lib.Sum
import Mono98.Syscall

/-!
What system calls read of the kernel's buffers.

An element of a buffer is read by a call when another value in it leads to another answer.
`SYS_ENTROPY` takes the number of the bytes of `scancode_buffer` for that of its elements, and
`SYS_READ` copies as many bytes as it is asked for.
-/

namespace Mono98.SyscallReads

open Mono98.Tty Mono98.Strings Mono98.Process Mono98.Syscall Mono98.Lib.Sum

variable (around : ℤ → ℕ) (k : Kernel) (c : Call)

/-- Another value in `scancode_buffer[i]` leads to another result. -/
def ReadsScancode (i : ℕ) : Prop :=
  ∃ x a a', syscall around k c = some a ∧
    syscall around k { c with scancodes := Function.update c.scancodes i x } = some a' ∧
      a.result ≠ a'.result

/-- The kernel with another value in `text_buffer[i]`. -/
def withText (i : ℕ) (x : UInt8) : Kernel :=
  k.setTerm { k.term with textBuffer := Function.update k.term.textBuffer i x }

/-- Another value in `text_buffer[i]` leaves the program another buffer. -/
def ReadsText (i : ℕ) : Prop :=
  ∃ x a a', syscall around k c = some a ∧ syscall around (withText k i x) c = some a' ∧
    a.buf ≠ a'.buf

variable {around k c} {i : ℕ}

/-! ### The scancode buffer -/

/-- The result of `SYS_ENTROPY` is a sum over 512 elements, and more. -/
lemma sysEntropy_sum (k : Kernel) (unused : ℕ → UInt8) :
    ∃ r, ∀ scancodes : ℕ → UInt16, sysEntropy k scancodes unused % 2 ^ 32 =
      (((List.range 512).map fun i => (scancodes i).toNat).sum + r) % 2 ^ 32 := by
  constructor
  intro scancodes
  simp only [sysEntropy]
  rw [foldl_add_mod, ← Nat.mod_add_mod, foldl_add_mod, Nat.mod_add_mod, Nat.add_assoc,
    ← Nat.mod_add_mod, foldl_add_mod, Nat.mod_add_mod, Nat.zero_add]

/-- Each of them makes a difference. -/
lemma sysEntropy_ne (k : Kernel) (s : ℕ → UInt16) (unused : ℕ → UInt8) (hi : i < 512) :
    sysEntropy k s unused ≠ sysEntropy k (Function.update s i (s i + 1)) unused := by
  intro heq
  obtain ⟨r, hsum⟩ := sysEntropy_sum k unused
  have hupd : (fun j => (Function.update s i (s i + 1) j).toNat) =
      Function.update (fun j => (s j).toNat) i (s i + 1).toNat := by
    ext j
    simp only [Function.update_apply]
    split <;> rfl
  have h₁ := hsum s
  have h₂ := hsum (Function.update s i (s i + 1))
  have h₃ := sum_update (fun j => (s j).toNat) (s i + 1).toNat 512 i
  have hne : (s i + 1).toNat ≠ (s i).toNat := fun h => absurd (UInt16.toNat_inj.mp h) (by simp)
  have hlt := (s i).toNat_lt
  have hlt' := (s i + 1).toNat_lt
  rw [if_pos hi, if_pos hi] at h₃
  rw [hupd] at h₂
  rw [heq, h₂] at h₁
  omega

/-- The elements behind them make none. -/
lemma sysEntropy_congr {k : Kernel} {s s' : ℕ → UInt16} {unused : ℕ → UInt8}
    (h : ∀ i < 512, s i = s' i) : sysEntropy k s unused = sysEntropy k s' unused := by
  have hfold : (List.range 512).foldl (fun r i => (r + (s i).toNat) % 2 ^ 32) 0 =
      (List.range 512).foldl (fun r i => (r + (s' i).toNat) % 2 ^ 32) 0 :=
    List.foldl_ext _ _ _ fun r i hi => by rw [h i (List.mem_range.mp hi)]
  simp only [sysEntropy, hfold]

variable (around k) in
lemma syscall_scancodes (hc : c.kind = some .entropy) (s : ℕ → UInt16) :
    ∃ a, syscall around k { c with scancodes := s } = some a ∧
      a.result = sysEntropy k s c.unused := by
  have hkind : ({ c with scancodes := s } : Call).kind = some .entropy := hc
  exact ⟨⟨sysEntropy k s c.unused, k, c.buf⟩, by simp only [syscall, hkind], by dsimp only⟩

/-- No other call looks at the buffer. -/
lemma syscall_other (hc : c.kind ≠ some .entropy) (s : ℕ → UInt16) :
    syscall around k { c with scancodes := s } = syscall around k c := by
  have hkind : ({ c with scancodes := s } : Call).kind = c.kind := rfl
  unfold syscall
  rw [hkind]
  split
  · rfl
  · rfl
  · rfl
  · next h => exact absurd h hc
  · rfl

/-- `SYS_ENTROPY` reads 512 elements of `scancode_buffer`, and the other calls none. -/
theorem readsScancode_iff : ReadsScancode around k c i ↔ c.kind = some .entropy ∧ i < 512 := by
  by_cases hc : c.kind = some .entropy
  · obtain ⟨b, hb, hres⟩ := syscall_scancodes around k hc c.scancodes
    constructor
    · rintro ⟨x, a, a', h, h', hne⟩
      refine ⟨hc, Nat.lt_of_not_le fun hi => hne ?_⟩
      obtain ⟨b', hb', hres'⟩ := syscall_scancodes around k hc (Function.update c.scancodes i x)
      obtain rfl := Option.some.inj (h.symm.trans hb)
      obtain rfl := Option.some.inj (h'.symm.trans hb')
      rw [hres, hres']
      exact sysEntropy_congr fun j hj => (Function.update_of_ne (by omega) _ _).symm
    · rintro ⟨-, hi⟩
      obtain ⟨b', hb', hres'⟩ := syscall_scancodes around k hc
        (Function.update c.scancodes i (c.scancodes i + 1))
      refine ⟨_, b, b', hb, hb', ?_⟩
      rw [hres, hres']
      exact sysEntropy_ne k c.scancodes c.unused hi
  · constructor
    · rintro ⟨x, a, a', h, h', hne⟩
      rw [syscall_other hc, h, Option.some.injEq] at h'
      exact absurd (congrArg Answer.result h') hne
    · exact fun h => absurd h.1 hc

/-! ### The text buffer -/

/-- The calls but `SYS_READ` leave the program's buffer as it is. -/
lemma syscall_buf {a : Answer} (h : syscall around k c = some a)
    (hc : ¬ (c.kind = some .read ∧ c.fd = 0)) : a.buf = c.buf := by
  rcases syscall_cases h with ⟨-, m, -, rfl⟩ | ⟨hread, -⟩ | ⟨-, rfl⟩ | ⟨-, rfl⟩ | ⟨-, rfl⟩
  · rfl
  · exact absurd hread hc
  · rfl
  · dsimp only
  · rfl

variable (around) in
lemma syscall_read (hc : c.kind = some .read ∧ c.fd = 0) (k : Kernel) :
    ∃ a, syscall around k c = some a ∧ a.buf = memcpy c.buf k.term.textBuffer c.arg3.toNat := by
  refine ⟨sysRead k c.fd c.buf c.arg3.toNat, by simp only [syscall, hc.1], ?_⟩
  rw [sysRead, if_pos hc.2]

/-- `SYS_READ` reads as many bytes of `text_buffer` as it is asked for, and the other calls
none. -/
theorem readsText_iff :
    ReadsText around k c i ↔ (c.kind = some .read ∧ c.fd = 0) ∧ i < c.arg3.toNat := by
  constructor
  · rintro ⟨x, a, a', h, h', hne⟩
    by_cases hc : c.kind = some .read ∧ c.fd = 0
    · refine ⟨hc, Nat.lt_of_not_le fun hi => hne ?_⟩
      obtain ⟨b, hb, hbuf⟩ := syscall_read around hc k
      obtain ⟨b', hb', hbuf'⟩ := syscall_read around hc (withText k i x)
      obtain rfl := Option.some.inj (h.symm.trans hb)
      obtain rfl := Option.some.inj (h'.symm.trans hb')
      rw [hbuf, hbuf']
      funext j
      rw [memcpy_apply, memcpy_apply]
      split
      · exact (Function.update_of_ne (by omega) _ _).symm
      · rfl
    · exact absurd ((syscall_buf h hc).trans (syscall_buf h' hc).symm) hne
  · rintro ⟨hc, hi⟩
    obtain ⟨a, ha, hbuf⟩ := syscall_read around hc k
    obtain ⟨a', ha', hbuf'⟩ := syscall_read around hc
      (withText k i (k.term.textBuffer i + 1))
    refine ⟨_, a, a', ha, ha', fun heq => ?_⟩
    have hi' := congrFun heq i
    rw [hbuf, hbuf', memcpy_apply, memcpy_apply, if_pos hi, if_pos hi] at hi'
    have hupd : (withText k i (k.term.textBuffer i + 1)).term.textBuffer i =
        k.term.textBuffer i + 1 := Function.update_self _ _ _
    rw [hupd] at hi'
    simp at hi'

/-! ### The bounds -/

/-- A call reads the two buffers only inside their bounds. -/
structure InBounds (around : ℤ → ℕ) (k : Kernel) (c : Call) : Prop where
  scancodes : ∀ i, ReadsScancode around k c i → i < 256
  text : ∀ i, ReadsText around k c i → i < 256

/-- **The calls within bounds** are those that neither ask for entropy nor for more than 256
bytes of text. -/
theorem reads_in_bounds (around : ℤ → ℕ) (k : Kernel) (c : Call) :
    InBounds around k c ↔
      c.kind ≠ some .entropy ∧ (c.kind = some .read → c.fd = 0 → c.arg3.toNat ≤ 256) := by
  constructor
  · rintro ⟨hs, ht⟩
    refine ⟨fun hc => ?_, fun hc hfd => Nat.le_of_not_lt fun hlong => ?_⟩
    · exact absurd (hs 256 (readsScancode_iff.mpr ⟨hc, by decide⟩)) (by decide)
    · exact absurd (ht 256 (readsText_iff.mpr ⟨⟨hc, hfd⟩, hlong⟩)) (by decide)
  · rintro ⟨hc, hlen⟩
    refine ⟨fun i hi => absurd (readsScancode_iff.mp hi).1 hc, fun i hi => ?_⟩
    obtain ⟨⟨hread, hfd⟩, hlt⟩ := readsText_iff.mp hi
    exact Nat.lt_of_lt_of_le hlt (hlen hread hfd)

/-- A call of `__entropy`. -/
def entropyCall : Call := ⟨6, 0, fun _ => 0, 0, fun _ => 0, fun _ => 0⟩

/-- It reads the element behind the last one. -/
theorem entropy_outside : ¬ InBounds (fun _ => 0) (.boot (fun _ => 0) fun _ => 0) entropyCall :=
  fun h => absurd (h.scancodes 256 (readsScancode_iff.mpr ⟨rfl, by decide⟩)) (by decide)

end Mono98.SyscallReads
