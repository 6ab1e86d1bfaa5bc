import Mono98.CommandRun

/-!
The system call dispatcher, and the `errno` it leaves.

Every branch of `syscall` sets `errno` before it returns but one: `SYS_ENTROPY` returns its
sum at once, and a code that an earlier call has left stays.
-/

namespace Mono98.Syscall

open Mono98.Graphics Mono98.Tty Mono98.TextGrid Mono98.TtyRows Mono98.TtyRun Mono98.Process
open Mono98.Command Mono98.CommandRun Mono98.Lib.Bytes Mono98.Lib.Fold

/-- `enum SystemCalls`. -/
inductive SystemCall
  | exit
  | read
  | write
  | malloc
  | opens -- unimplemented
  | exec -- unimplemented
  | entropy
  deriving DecidableEq

def systemCalls : List SystemCall := [.exit, .read, .write, .malloc, .opens, .exec, .entropy]

def esyscallNoent : ℕ := 1

/-- The arguments of a call: `buf` is the memory at `arg2`. The last two are what `SYS_ENTROPY`
finds in the memory from `scancode_buffer` and from 0x00A00000 on. -/
structure Call where
  syscallNo : UInt8
  arg1 : UInt32
  buf : ℕ → UInt8
  arg3 : UInt32
  scancodes : ℕ → UInt16
  unused : ℕ → UInt8

namespace Call

variable (c : Call)

/-- The case of the `switch`; the other numbers have none. -/
def kind : Option SystemCall := systemCalls[c.syscallNo.toNat]?

/-- `(uint8_t)arg1`. -/
def fd : UInt8 := c.arg1.toUInt8

/-- The call is one that the kernel serves. -/
def Served : Prop :=
  match c.kind with
  | some .write => c.fd = 1
  | some .read => c.fd = 0
  | some .malloc | some .entropy => True
  | _ => False

/-- The code of a call that is rejected. -/
def code : ℕ :=
  match c.kind with
  | some .write | some .read => einvalidOperation
  | _ => esyscallNoent

end Call

variable (around : ℤ → ℕ)

/-- `SYS_WRITE`. -/
def sysWrite (k : Kernel) (fd : UInt8) (buf : ℕ → UInt8) : Option Answer :=
  if fd = 1 then
    (tputs around k.machine (textAt buf)).map fun m =>
      ⟨0, { k with machine := m, errno := eokay }, buf⟩
  else some ⟨2 ^ 32 - 1, { k with errno := einvalidOperation }, buf⟩

/-- `SYS_ENTROPY`: the sum of the scancode buffer, whose index runs to the number of its bytes,
of the video memory and of unused memory. -/
def sysEntropy (k : Kernel) (scancodes : ℕ → UInt16) (unused : ℕ → UInt8) : ℕ :=
  let result := (List.range 512).foldl (fun r i => (r + (scancodes i).toNat) % 2 ^ 32) 0
  let result := (List.range 0x10000).foldl
    (fun r i => (r + (k.machine.video.mem i).toNat) % 2 ^ 32) result
  (List.range 0x100000).foldl (fun r i => (r + (unused i).toNat) % 2 ^ 32) result

def syscall (k : Kernel) (c : Call) : Option Answer :=
  match c.kind with
  | some .write => sysWrite around k c.fd c.buf
  | some .read => some (sysRead k c.fd c.buf c.arg3.toNat)
  | some .malloc =>
    let (result, k) := sysMalloc k c.arg1.toNat
    some ⟨result, k, c.buf⟩
  | some .entropy => some ⟨sysEntropy k c.scancodes c.unused, k, c.buf⟩
  | _ => some ⟨2 ^ 32 - 1, { k with errno := esyscallNoent }, c.buf⟩

/-- The kernel after a sequence of calls. -/
def runCalls (k : Kernel) (calls : List Call) : Option Kernel :=
  calls.foldlM (fun k c => (syscall around k c).map Answer.kernel) k

/-! ### One call -/

/-- `errno` says how the call has gone. -/
structure Describes (c : Call) (a : Answer) : Prop where
  served : c.Served → a.kernel.errno = eokay
  rejected : ¬ c.Served → a.result = 2 ^ 32 - 1 ∧ a.kernel.errno = c.code

variable {around} {k k' : Kernel} {c : Call} {a : Answer} {m : Machine}

/-- What a call that comes back has done. -/
lemma syscall_cases (h : syscall around k c = some a) :
    ((c.kind = some .write ∧ c.fd = 1) ∧ ∃ m, tputs around k.machine (textAt c.buf) = some m ∧
      a = ⟨0, { k with machine := m, errno := eokay }, c.buf⟩) ∨
    ((c.kind = some .read ∧ c.fd = 0) ∧ a = sysRead k c.fd c.buf c.arg3.toNat) ∨
    (c.kind = some .malloc ∧
      a = ⟨(sysMalloc k c.arg1.toNat).1, (sysMalloc k c.arg1.toNat).2, c.buf⟩) ∨
    (c.kind = some .entropy ∧ a = ⟨sysEntropy k c.scancodes c.unused, k, c.buf⟩) ∨
    (¬ c.Served ∧ a = ⟨2 ^ 32 - 1, { k with errno := c.code }, c.buf⟩) := by
  unfold syscall at h
  split at h
  · next hc =>
    unfold sysWrite at h
    split at h
    · next hfd =>
      obtain ⟨m, hm, rfl⟩ := Option.map_eq_some_iff.mp h
      exact Or.inl ⟨⟨hc, hfd⟩, m, hm, rfl⟩
    · next hfd =>
      obtain rfl := Option.some.inj h
      exact Or.inr (Or.inr (Or.inr (Or.inr
        ⟨by simp [Call.Served, hc, hfd], by simp [Call.code, hc]⟩)))
  · next hc =>
    by_cases hfd : c.fd = 0
    · exact Or.inr (Or.inl ⟨⟨hc, hfd⟩, (Option.some.inj h).symm⟩)
    · rw [sysRead, if_neg hfd, Option.some.injEq] at h
      exact Or.inr (Or.inr (Or.inr (Or.inr
        ⟨by simp [Call.Served, hc, hfd], by simp [Call.code, hc, ← h]⟩)))
  · next hc => exact Or.inr (Or.inr (Or.inl ⟨hc, (Option.some.inj h).symm⟩))
  · next hc => exact Or.inr (Or.inr (Or.inr (Or.inl ⟨hc, (Option.some.inj h).symm⟩)))
  · next hw hr hm he =>
    obtain rfl := Option.some.inj h
    refine Or.inr (Or.inr (Or.inr (Or.inr ⟨fun hs => ?_, ?_⟩)))
    · unfold Call.Served at hs
      split at hs <;> contradiction
    · unfold Call.code
      split
      · contradiction
      · contradiction
      · rfl

/-- A call that comes back is described by `errno`, whichever case it is, but for entropy. -/
lemma describes_of_ne (h : syscall around k c = some a) (hne : c.kind ≠ some .entropy) :
    Describes c a := by
  rcases syscall_cases h with
    ⟨⟨hc, hfd⟩, m, -, rfl⟩ | ⟨⟨hc, hfd⟩, rfl⟩ | ⟨hc, rfl⟩ | ⟨hc, -⟩ | ⟨hns, rfl⟩
  · exact ⟨fun _ => rfl, fun hn => absurd (by simp [Call.Served, hc, hfd]) hn⟩
  · exact ⟨fun _ => by rw [sysRead, if_pos hfd],
      fun hn => absurd (by simp [Call.Served, hc, hfd]) hn⟩
  · exact ⟨fun _ => rfl, fun hn => absurd (by simp [Call.Served, hc]) hn⟩
  · exact absurd hc hne
  · exact ⟨fun hs => absurd hs hns, fun _ => ⟨rfl, rfl⟩⟩

variable (around k) in
/-- A call for entropy comes back with the `errno` of before. -/
lemma syscall_entropy (hc : c.kind = some .entropy) :
    ∃ a, syscall around k c = some a ∧ (Describes c a ↔ k.errno = eokay) := by
  have hs : c.Served := by simp [Call.Served, hc]
  exact ⟨⟨sysEntropy k c.scancodes c.unused, k, c.buf⟩, by simp only [syscall, hc],
    fun hd => hd.served hs, fun h => ⟨fun _ => h, fun hn => absurd hs hn⟩⟩

/-! ### Sequences of calls -/

/-- After every call of the sequence `errno` describes it. -/
def AllDescribed (around : ℤ → ℕ) (k : Kernel) (calls : List Call) : Prop :=
  ∀ pre c post, calls = pre ++ c :: post → ∀ k', runCalls around k pre = some k' →
    ∀ a, syscall around k' c = some a → Describes c a

/-- `SYS_ENTROPY` is called only when `errno` is clear. -/
def EntropyClear (around : ℤ → ℕ) (k : Kernel) (calls : List Call) : Prop :=
  ∀ pre c post, calls = pre ++ c :: post → ∀ k', runCalls around k pre = some k' →
    c.kind = some .entropy → k'.errno = eokay

/-- **The latest call**: `errno` describes every call of a sequence exactly when it is clear
before every `SYS_ENTROPY`. -/
theorem errno_latest (around : ℤ → ℕ) (k : Kernel) (calls : List Call) :
    AllDescribed around k calls ↔ EntropyClear around k calls := by
  constructor
  · intro h pre c post heq k' hk hc
    obtain ⟨a, ha, hiff⟩ := syscall_entropy around k' hc
    exact hiff.mp (h pre c post heq k' hk a ha)
  · intro h pre c post heq k' hk a ha
    by_cases hc : c.kind = some .entropy
    · obtain ⟨a', ha', hiff⟩ := syscall_entropy around k' hc
      obtain rfl := Option.some.inj (ha.symm.trans ha')
      exact hiff.mpr (h pre c post heq k' hk hc)
    · exact describes_of_ne ha hc

/-- A call that opens a file, and then one for entropy. -/
def openEntropy : List Call :=
  [⟨4, 0, fun _ => 0, 0, fun _ => 0, fun _ => 0⟩, ⟨6, 0, fun _ => 0, 0, fun _ => 0, fun _ => 0⟩]

/-- The second call is served, and leaves the code of the first. -/
theorem errno_stale :
    ¬ AllDescribed (fun _ => 0) (.boot (fun _ => 0) fun _ => 0) openEntropy := by
  intro h
  have hd := h [openEntropy[0]] openEntropy[1] [] rfl _ rfl _ rfl
  exact absurd (hd.served trivial) (by decide)

/-! ### Calls come back -/

/-- The buffer of a call that writes to the screen holds a string within the range of `tputs`. -/
def Call.Prints (c : Call) : Prop :=
  c.kind = some .write → c.fd = 1 → ∃ s, IsString c.buf 0 s ∧ s.length ≤ 65535

/-- A read leaves what is on the screen alone. -/
lemma sound_sysRead (h : Sound k.machine) (fd : UInt8) (buf : ℕ → UInt8) (len : ℕ) :
    Sound (sysRead k fd buf len).kernel.machine := by
  obtain ⟨⟨⟨xs, hl⟩, hok⟩, hd, ha⟩ := h
  unfold sysRead
  split
  · simp only [Kernel.setTerm, advanceText]
    split <;> exact ⟨⟨⟨xs, hl.congr rfl rfl rfl⟩, hok⟩, hd, ha⟩
  · exact ⟨⟨⟨xs, hl⟩, hok⟩, hd, ha⟩

variable (around) in
lemma syscall_some (h : Sound k.machine) (hp : c.Prints) :
    ∃ a, syscall around k c = some a ∧ Sound a.kernel.machine := by
  unfold syscall
  cases hc : c.kind with
  | none => exact ⟨_, rfl, h⟩
  | some n =>
    cases n with
    | write =>
      simp only [sysWrite]
      split
      · next hfd =>
        obtain ⟨s, hs, hlen⟩ := hp hc hfd
        obtain ⟨m, hm, hsm⟩ := tputs_some around h ⟨hlen, hs.nonzero⟩
        exact ⟨_, by rw [textAt_eq hs (Nat.lt_succ_of_le hlen), hm]; rfl, hsm⟩
      · exact ⟨_, rfl, h⟩
    | read => exact ⟨_, rfl, sound_sysRead h _ _ _⟩
    | _ => exact ⟨_, rfl, h⟩

/-- **Sequences of calls** come back, when every call that writes to the screen has a string to
print. -/
theorem runCalls_some (h : Sound k.machine) {calls : List Call} (hp : ∀ c ∈ calls, c.Prints) :
    ∃ k', runCalls around k calls = some k' ∧ Sound k'.machine := by
  refine foldlM_some (fun k : Kernel => Sound k.machine) (fun c hc k hk => ?_) h
  obtain ⟨a, ha, hs⟩ := syscall_some around hk (hp c hc)
  exact ⟨a.kernel, by rw [ha]; rfl, hs⟩

end Mono98.Syscall
