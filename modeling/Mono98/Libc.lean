import Mono98.ShellPrograms
import Mono98.Stdlib

/-!
The C library of the programs.

`stdio`, `unistd` and `stdlib` get at the kernel through the one pointer below the program, and
keep nothing but the seed of `rand`. A program is whatever asks the library for one thing after
another and goes on with the answer; what it has in registers and on the stack is its state. It may
only touch memory of its own, and this is no memory of the kernel: all of that, with the stack, the
screen and the pointer, lies below the place of the program.
-/

namespace Mono98.Libc

open Mono98.Tty Mono98.Process Mono98.Syscall Mono98.TextPage Mono98.Shell Mono98.ShellAnswer
open Mono98.ShellRun Mono98.ShellPrograms Mono98.Command Mono98.CommandRun Mono98.RomdiskLookup
open Mono98.ScreenPage Mono98.Stdlib Mono98.Lib.Bytes Mono98.Lib.Simulation Mono98.Lib.Footprint

/-! ### Memory -/

/-- The memory behind a pointer. -/
def behind (mem : ℕ → UInt8) (p : UInt32) : ℕ → UInt8 := fun i => mem ((p.toNat + i) % 2 ^ 32)

/-- How far behind a pointer an address is. -/
def distance (p : UInt32) (a : ℕ) : ℕ := (a + 2 ^ 32 - p.toNat) % 2 ^ 32

/-- The memory once the buffer behind a pointer has been stored to. -/
def stored (mem : ℕ → UInt8) (p : UInt32) (buf : ℕ → UInt8) : ℕ → UInt8 :=
  fun a => if a < 2 ^ 32 then buf (distance p a) else mem a

/-- The memory once `n` bytes behind a pointer are new. -/
def filled (mem : ℕ → UInt8) (p : UInt32) (n : ℕ) (bytes : ℕ → UInt8) : ℕ → UInt8 :=
  fun a => if a < 2 ^ 32 ∧ distance p a < n then bytes (distance p a) else mem a

/-! ### The library -/

/-- The kernel, the memory of the program, and `__rand_seed`. -/
structure Library where
  kernel : Kernel
  mem : ℕ → UInt8
  seed : UInt32

/-- What a program asks for: a function of the library, `errno`, or a byte of its memory. -/
inductive Op
  | fopen (path mode : UInt32)
  | fclose (fp : UInt32)
  | fwrite (buf size len fp : UInt32)
  | fread (buf size len fp : UInt32)
  | malloc (len : UInt32)
  | calloc (num size : UInt32)
  | entropy
  | srand (seed : UInt32)
  | rand
  | errno
  | load (a : UInt32)
  | store (a : UInt32) (b : UInt8)

section

variable (around : ℤ → ℕ) (l : Library) (scancodes : ℕ → UInt16) (unused : ℕ → UInt8)

/-- The arguments that the macro `syscall` calls the kernel with. The fourth one is `NULL`. -/
def callOf (no : UInt8) (arg1 arg2 arg3 : UInt32) : Call :=
  ⟨no, arg1, behind l.mem arg2, arg3, scancodes, unused⟩

/-- The macro `syscall`: the result, and the library afterwards. -/
def kernelCall (no : UInt8) (arg1 arg2 arg3 : UInt32) : Option (UInt32 × Library) :=
  (syscall around l.kernel (callOf l scancodes unused no arg1 arg2 arg3)).map fun a =>
    (UInt32.ofNat a.result, { l with kernel := a.kernel, mem := stored l.mem arg2 a.buf })

def write (fd : UInt8) (buf len : UInt32) : Option (UInt32 × Library) :=
  kernelCall around l scancodes unused 2 fd.toUInt32 buf len

def read (fd : UInt8) (buf len : UInt32) : Option (UInt32 × Library) :=
  kernelCall around l scancodes unused 1 fd.toUInt32 buf len

/-- `fp->fd`. -/
def fd (mem : ℕ → UInt8) (fp : UInt32) : UInt8 := mem fp.toNat

/-- A call of the library. The ones without a result answer 0. -/
def Library.call : Op → Option (UInt32 × Library)
  | .fopen _ _ => some (0, l)
  | .fclose _ => some (0, l)
  | .fwrite buf size len fp => write around l scancodes unused (fd l.mem fp) buf (size * len)
  | .fread buf size len fp => read around l scancodes unused (fd l.mem fp) buf (size * len)
  | .malloc len => kernelCall around l scancodes unused 3 len 0 0
  | .calloc num size =>
    let (result, k, mem) := Stdlib.calloc l.kernel l.mem num size
    some (UInt32.ofNat result, { l with kernel := k, mem := mem })
  | .entropy => kernelCall around l scancodes unused 6 0 0 0
  | .srand seed => some (0, { l with seed := Stdlib.srand seed })
  | .rand =>
    let (result, seed) := Stdlib.rand l.seed
    some (result, { l with seed := seed })
  | .errno => some (UInt32.ofNat l.kernel.errno, l)
  | .load a => some ((l.mem a.toNat).toUInt32, l)
  | .store a b => some (0, { l with mem := Function.update l.mem a.toNat b })

end

/-- The memory of a program: the part `holds` of what is not the kernel's. -/
structure Owned where
  holds : ℕ → Prop
  apart : ∀ a, holds a → programInjectionAddress ≤ a

/-- What a program has to see to: all memory that it hands to the library is its own, and what it
writes to the screen is a string that `tputs` can print. -/
def Fine (own : Owned) (l : Library) : Op → Prop
  | .fwrite buf _ _ fp => own.holds fp.toNat ∧ (fd l.mem fp = 1 →
      ∃ str, IsString (behind l.mem buf) 0 str ∧ str.length ≤ 65535 ∧
        ∀ a < 2 ^ 32, distance buf a ≤ str.length → own.holds a)
  | .fread buf size len fp => own.holds fp.toNat ∧ (fd l.mem fp = 0 →
      ∀ a < 2 ^ 32, distance buf a < (size * len).toNat → own.holds a)
  | .calloc num size => ∀ a ∈ clears l.kernel.mallocStart (num * size), own.holds a
  | .load a => own.holds a.toNat
  | .store a _ => own.holds a.toNat
  | _ => True

/-- A program: what it asks for, unless it has returned, and how it goes on with an answer. -/
structure Program (σ : Type) where
  next : σ → Option Op
  feed : σ → UInt32 → σ

/-- A call that a program makes. The keys that have been typed, and the memory that nothing uses,
may be anything. -/
inductive Step (around : ℤ → ℕ) (own : Owned) {σ : Type} (P : Program σ) :
    σ × Library → σ × Library → Prop
  | call {x l op v l'} (scancodes : ℕ → UInt16) (unused : ℕ → UInt8) (h : P.next x = some op)
    (fine : Fine own l op) (hl : l.call around scancodes unused op = some (v, l')) :
    Step around own P (x, l) (P.feed x v, l')

/-! ### What the library is for -/

/-- What a program can know of: the page, `errno`, the end of the heap, the seed and its memory. -/
structure Runtime where
  page : Page
  errno : ℕ
  top : ℕ
  seed : UInt32
  mem : ℕ → UInt8

/-- The answer to an operation, and what becomes of the runtime. There are no files but the three
that are open: two of them print, up to the terminator and whatever the sizes are, and the third
one reads zeros. Behind the 256 bytes of the kernel's buffer a read goes on with anything. -/
inductive Serves (glyph : UInt8 → ℕ) : Runtime → Op → UInt32 → Runtime → Prop
  | fopen {r path mode} : Serves glyph r (.fopen path mode) 0 r
  | fclose {r fp} : Serves glyph r (.fclose fp) 0 r
  | prints {r buf size len fp} (str : List UInt8) (hfd : fd r.mem fp = 1)
    (hs : IsString (behind r.mem buf) 0 str) :
    Serves glyph r (.fwrite buf size len fp) 0
      { r with page := TextPage.puts glyph r.page str, errno := eokay }
  | unwritable {r buf size len fp} (hfd : fd r.mem fp ≠ 1) :
    Serves glyph r (.fwrite buf size len fp) 0xFFFFFFFF { r with errno := einvalidOperation }
  | reads {r buf size len fp} (bytes : ℕ → UInt8) (hfd : fd r.mem fp = 0)
    (zero : ∀ i < 256, bytes i = 0) :
    Serves glyph r (.fread buf size len fp) 0
      { r with errno := eokay, mem := filled r.mem buf (size * len).toNat bytes }
  | unreadable {r buf size len fp} (hfd : fd r.mem fp ≠ 0) :
    Serves glyph r (.fread buf size len fp) 0xFFFFFFFF { r with errno := einvalidOperation }
  | malloc {r len} : Serves glyph r (.malloc len) (UInt32.ofNat r.top)
      { r with errno := eokay, top := (r.top + len.toNat) % 2 ^ 32 }
  | calloc {r num size} : Serves glyph r (.calloc num size) (UInt32.ofNat r.top)
      { r with
        errno := eokay
        top := (r.top + (num * size).toNat) % 2 ^ 32
        mem := filled r.mem (UInt32.ofNat r.top) (num * size).toNat fun _ => 0 }
  | entropy {r} (v : UInt32) : Serves glyph r .entropy v r
  | srand {r seed} : Serves glyph r (.srand seed) 0 { r with seed := seed }
  | rand {r} : Serves glyph r .rand (Stdlib.rand r.seed).1 { r with seed := (Stdlib.rand r.seed).2 }
  | errno {r} : Serves glyph r .errno (UInt32.ofNat r.errno) r
  | load {r a} : Serves glyph r (.load a) (r.mem a.toNat).toUInt32 r
  | store {r a b} : Serves glyph r (.store a b) 0
      { r with mem := Function.update r.mem a.toNat b }

/-- A program over the runtime. -/
inductive Asks (glyph : UInt8 → ℕ) {σ : Type} (P : Program σ) : σ × Runtime → σ × Runtime → Prop
  | serve {x r op v r'} (h : P.next x = some op) (hs : Serves glyph r op v r') :
    Asks glyph P (x, r) (P.feed x v, r')

/-! ### Memory behind a pointer -/

variable {mem : ℕ → UInt8} {p : UInt32} {a n : ℕ}

lemma behind_distance (ha : a < 2 ^ 32) : behind mem p (distance p a) = mem a := by
  have hp := p.toNat_lt
  rw [behind, distance]
  congr 1
  omega

lemma stored_behind (mem : ℕ → UInt8) (p : UInt32) : stored mem p (behind mem p) = mem := by
  ext a
  rw [stored]
  split_ifs with ha
  · rw [behind_distance ha]
  · rfl

/-- Copying to a buffer. -/
lemma stored_memcpy (bytes : ℕ → UInt8) :
    stored mem p (Strings.memcpy (behind mem p) bytes n) = filled mem p n bytes := by
  ext a
  rw [stored, filled]
  by_cases ha : a < 2 ^ 32
  · rw [if_pos ha, Strings.memcpy_apply]
    split_ifs with h₁ h₂ h₂
    · rfl
    · exact absurd ⟨ha, h₁⟩ h₂
    · exact absurd h₂.2 h₁
    · rw [behind_distance ha]
  · rw [if_neg ha, if_neg fun h => ha h.1]

/-- The addresses that `calloc` clears. -/
lemma mem_clears_iff {len : UInt32} :
    a ∈ clears p.toNat len ↔ a < 2 ^ 32 ∧ distance p a < len.toNat := by
  have hp := p.toNat_lt
  have hlen := len.toNat_lt
  simp only [clears, List.mem_map, List.mem_range, distance]
  constructor
  · rintro ⟨i, hi, rfl⟩
    omega
  · rintro ⟨ha, h⟩
    exact ⟨_, h, by omega⟩

lemma filled_zero (mem : ℕ → UInt8) (p len : UInt32) :
    (clears p.toNat len).foldl (fun m a => Function.update m a 0) mem =
      filled mem p len.toNat fun _ => 0 := by
  ext a
  simp only [foldl_update_apply, mem_clears_iff, filled]

/-! ### The library is the runtime -/

variable {around : ℤ → ℕ} {own : Owned} {t₀ : Terminal} {k₁ : Kernel} {mem₀ : ℕ → UInt8}
variable {l l' : Library} {r : Runtime} {c : Call} {s : ℕ → UInt16} {u : ℕ → UInt8} {op : Op}

/-- The kernel and the library hold what the runtime says, the kernel has got there by calls from
`k₁`, and no memory but the program's own has been stored to. -/
structure Agrees (around : ℤ → ℕ) (own : Owned) (t₀ : Terminal) (k₁ : Kernel)
    (mem₀ : ℕ → UInt8) (l : Library) (r : Runtime) : Prop where
  presents : Presents t₀ l.kernel.machine r.page
  errno : l.kernel.errno = r.errno
  top : l.kernel.mallocStart = r.top
  heap : r.top < 2 ^ 32
  seed : l.seed = r.seed
  mem : l.mem = r.mem
  frame : ∀ a, ¬ own.holds a → r.mem a = mem₀ a
  calls : ∃ calls, (∀ c ∈ calls, Call.Prints c) ∧ runCalls around k₁ calls = some l.kernel

/-- What a call leaves of the kernel and of the calls before it. -/
lemma Agrees.syscall (h : Agrees around own t₀ k₁ mem₀ l r) (prints : c.Prints) :
    ∃ a, Syscall.syscall around l.kernel c = some a ∧
      Served around t₀ r.page l.kernel a.kernel [c] ∧
      ∃ calls, (∀ c ∈ calls, Call.Prints c) ∧ runCalls around k₁ calls = some a.kernel := by
  obtain ⟨a, ha, hs⟩ := served_call around h.presents (h.top ▸ h.heap) prints
  obtain ⟨calls, hall, hrun⟩ := h.calls
  refine ⟨a, ha, hs, calls ++ [c], fun d hd => ?_, ?_⟩
  · rcases List.mem_append.mp hd with hd | hd
    · exact hall d hd
    · rwa [List.mem_singleton.mp hd]
  · simp only [runCalls] at hrun ⊢
    simp [hrun, ha]

/-- The runtime behind a call of the kernel. -/
lemma Agrees.after (h : Agrees around own t₀ k₁ mem₀ l r) {a : Answer}
    (hs : Served around t₀ r.page l.kernel a.kernel [c])
    (calls : ∃ calls, (∀ c ∈ calls, Call.Prints c) ∧ runCalls around k₁ calls = some a.kernel)
    {text : List UInt8} (hw : written [c] = text) {len : ℕ} (hlen : asked [c] = len)
    {mem : ℕ → UInt8} (frame : ∀ a, ¬ own.holds a → mem a = r.mem a) :
    Agrees around own t₀ k₁ mem₀ { l with kernel := a.kernel, mem := mem }
      ⟨TextPage.puts (fontAt around) r.page text, a.kernel.errno, (r.top + len) % 2 ^ 32, r.seed,
        mem⟩ where
  presents := hw ▸ hs.presents
  errno := rfl
  top := by rw [← hlen, ← h.top]; exact hs.heap
  heap := Nat.mod_lt _ (by decide)
  seed := h.seed
  mem := rfl
  frame := fun a ha => (frame a ha).trans (h.frame a ha)
  calls := calls

lemma written_quiet (hw : ¬ (c.kind = some .write ∧ c.fd = 1)) : written [c] = [] :=
  (written_single c).trans (if_neg hw)

/-- A kernel call that neither prints nor takes memory. -/
lemma Agrees.quiet (h : Agrees around own t₀ k₁ mem₀ l r) {a : Answer}
    (hs : Served around t₀ r.page l.kernel a.kernel [c])
    (calls : ∃ calls, (∀ c ∈ calls, Call.Prints c) ∧ runCalls around k₁ calls = some a.kernel)
    (hw : ¬ (c.kind = some .write ∧ c.fd = 1)) (hm : c.kind ≠ some .malloc) {mem : ℕ → UInt8}
    (frame : ∀ a, ¬ own.holds a → mem a = r.mem a) :
    Agrees around own t₀ k₁ mem₀ { l with kernel := a.kernel, mem := mem }
      { r with errno := a.kernel.errno, mem := mem } := by
  have hlen : asked [c] = 0 := (asked_single c).trans (if_neg hm)
  have hafter := h.after hs calls (written_quiet hw) hlen frame
  rwa [Nat.add_zero, Nat.mod_eq_of_lt h.heap] at hafter

/-- The library answers an operation as the runtime does. -/
def Replied (around : ℤ → ℕ) (own : Owned) (t₀ : Terminal) (k₁ : Kernel) (mem₀ : ℕ → UInt8)
    (l : Library) (r : Runtime) (s : ℕ → UInt16) (u : ℕ → UInt8) (op : Op) : Prop :=
  ∃ v l' r', l.call around s u op = some (v, l') ∧ Serves (fontAt around) r op v r' ∧
    Agrees around own t₀ k₁ mem₀ l' r'

lemma kernelCall_some {no : UInt8} {arg1 arg2 arg3 : UInt32} {a : Answer}
    (ha : Syscall.syscall around l.kernel (callOf l s u no arg1 arg2 arg3) = some a)
    {mem : ℕ → UInt8} (hmem : stored l.mem arg2 a.buf = mem) :
    kernelCall around l s u no arg1 arg2 arg3 =
      some (UInt32.ofNat a.result, { l with kernel := a.kernel, mem := mem }) := by
  rw [kernelCall, ha, ← hmem]
  rfl

lemma replied_fwrite (h : Agrees around own t₀ k₁ mem₀ l r) {buf size len fp : UInt32}
    (fine : Fine own l (.fwrite buf size len fp)) :
    Replied around own t₀ k₁ mem₀ l r s u (.fwrite buf size len fp) := by
  let c := callOf l s u 2 (fd l.mem fp).toUInt32 buf (size * len)
  have hfd' : c.fd = fd l.mem fp := UInt8.toUInt8_toUInt32 _
  have hfd : c.fd = fd r.mem fp := hfd'.trans (by rw [h.mem])
  have hmem : stored l.mem buf c.buf = r.mem := (stored_behind l.mem buf).trans h.mem
  obtain ⟨a, ha, hs, calls⟩ := h.syscall (c := c) fun _ h1 => by
    obtain ⟨str, hstr, hlen, -⟩ := fine.2 (hfd' ▸ h1)
    exact ⟨str, hstr, hlen⟩
  have hkind : c.kind = some .write := rfl
  have hmalloc : c.kind ≠ some .malloc := by
    rw [hkind]
    decide
  have hwrite : sysWrite around l.kernel c.fd c.buf = some a := ha
  rw [sysWrite] at hwrite
  split at hwrite
  · next h1 =>
    obtain ⟨m, -, rfl⟩ := Option.map_eq_some_iff.mp hwrite
    obtain ⟨str, hstr, hlen, -⟩ := fine.2 (hfd' ▸ h1)
    have htext : textAt c.buf = str := textAt_eq hstr (Nat.lt_succ_of_le hlen)
    have hw : written [c] = str := by rw [written_single, if_pos ⟨rfl, h1⟩, htext]
    have hlen : asked [c] = 0 := (asked_single c).trans (if_neg hmalloc)
    have hafter := h.after hs calls hw hlen fun _ _ => rfl
    rw [Nat.add_zero, Nat.mod_eq_of_lt h.heap] at hafter
    exact ⟨_, _, _, kernelCall_some ha hmem, .prints str (hfd ▸ h1) (h.mem ▸ hstr), hafter⟩
  · next h1 =>
    obtain rfl := Option.some.inj hwrite
    have hquiet := h.quiet hs calls (fun h => h1 h.2) hmalloc fun _ _ => rfl
    exact ⟨_, _, _, kernelCall_some ha hmem, .unwritable (hfd ▸ h1), hquiet⟩

lemma replied_fread (h : Agrees around own t₀ k₁ mem₀ l r) {buf size len fp : UInt32}
    (fine : Fine own l (.fread buf size len fp)) :
    Replied around own t₀ k₁ mem₀ l r s u (.fread buf size len fp) := by
  let c := callOf l s u 1 (fd l.mem fp).toUInt32 buf (size * len)
  have hfd' : c.fd = fd l.mem fp := UInt8.toUInt8_toUInt32 _
  have hfd : c.fd = fd r.mem fp := hfd'.trans (by rw [h.mem])
  have hkind : c.kind = some .read := rfl
  have hquiet : c.kind ≠ some .write ∧ c.kind ≠ some .malloc := by
    rw [hkind]
    decide
  obtain ⟨a, ha, hs, calls⟩ := h.syscall (c := c) fun h => absurd h hquiet.1
  have hr : sysRead l.kernel c.fd c.buf (size * len).toNat = a := Option.some.inj ha
  rw [sysRead] at hr
  split at hr
  · next h0 =>
    subst hr
    have hframe : ∀ a, ¬ own.holds a →
        filled r.mem buf (size * len).toNat l.kernel.term.textBuffer a = r.mem a := fun a ha => by
      rw [filled, if_neg fun hb => ha (fine.2 (hfd' ▸ h0) a hb.1 hb.2)]
    have hagrees := h.quiet hs calls (fun h => hquiet.1 h.1) hquiet.2 hframe
    have hmem : stored l.mem buf (Strings.memcpy c.buf l.kernel.term.textBuffer _) =
        filled r.mem buf (size * len).toNat l.kernel.term.textBuffer :=
      (stored_memcpy _).trans (by rw [h.mem])
    exact ⟨_, _, _, kernelCall_some ha hmem,
      .reads l.kernel.term.textBuffer (hfd ▸ h0) h.presents.input.buffer, hagrees⟩
  · next h0 =>
    subst hr
    have hmem : stored l.mem buf c.buf = r.mem := (stored_behind l.mem buf).trans h.mem
    have hagrees := h.quiet hs calls (fun h => hquiet.1 h.1) hquiet.2 fun _ _ => rfl
    exact ⟨_, _, _, kernelCall_some ha hmem, .unreadable (hfd ▸ h0), hagrees⟩

lemma replied_malloc (h : Agrees around own t₀ k₁ mem₀ l r) (len : UInt32) :
    Replied around own t₀ k₁ mem₀ l r s u (.malloc len) := by
  let c := callOf l s u 3 len 0 0
  have hkind : c.kind = some .malloc := rfl
  have hw : c.kind ≠ some .write := by
    rw [hkind]
    decide
  obtain ⟨a, ha, hs, calls⟩ := h.syscall (c := c) fun h => absurd h hw
  obtain rfl := Option.some.inj ha
  have hmem : stored l.mem 0 c.buf = r.mem := (stored_behind l.mem 0).trans h.mem
  have hafter := h.after hs calls (written_quiet fun h => hw h.1)
    ((asked_single c).trans (if_pos hkind)) fun _ _ => rfl
  refine ⟨_, _, _, kernelCall_some ha hmem, ?_, hafter⟩
  show Serves _ r _ (UInt32.ofNat l.kernel.mallocStart) _
  rw [h.top]
  exact .malloc

/-- `calloc` is a call of `malloc`, and a loop. -/
lemma replied_calloc (h : Agrees around own t₀ k₁ mem₀ l r) {num size : UInt32}
    (fine : Fine own l (.calloc num size)) :
    Replied around own t₀ k₁ mem₀ l r s u (.calloc num size) := by
  let c := callOf l s u 3 (num * size) 0 0
  have hkind : c.kind = some .malloc := rfl
  have hw : c.kind ≠ some .write := by
    rw [hkind]
    decide
  obtain ⟨a, ha, hs, calls⟩ := h.syscall (c := c) fun h => absurd h hw
  obtain rfl := Option.some.inj ha
  have htop : (UInt32.ofNat r.top).toNat = r.top := UInt32.toNat_ofNat_of_lt' h.heap
  have hclear : (clears l.kernel.mallocStart (num * size)).foldl
      (fun m a => Function.update m a 0) l.mem =
      filled r.mem (UInt32.ofNat r.top) (num * size).toNat fun _ => 0 := by
    rw [h.top, h.mem, ← filled_zero, htop]
  have hframe : ∀ a, ¬ own.holds a →
      filled r.mem (UInt32.ofNat r.top) (num * size).toNat (fun _ => 0) a = r.mem a := by
    intro a ha
    rw [filled, if_neg fun hb => ha (fine a ?_)]
    rw [h.top, ← htop]
    exact mem_clears_iff.mpr hb
  have hafter := h.after hs calls (written_quiet fun h => hw h.1)
    ((asked_single c).trans (if_pos hkind)) hframe
  have hcall : l.call around s u (.calloc num size) = some (UInt32.ofNat r.top,
      { l with
        kernel := (sysMalloc l.kernel (num * size).toNat).2
        mem := filled r.mem (UInt32.ofNat r.top) (num * size).toNat fun _ => 0 }) := by
    rw [← hclear, ← h.top]
    rfl
  exact ⟨_, _, _, hcall, .calloc, hafter⟩

lemma replied_entropy (h : Agrees around own t₀ k₁ mem₀ l r) :
    Replied around own t₀ k₁ mem₀ l r s u .entropy := by
  let c := callOf l s u 6 0 0 0
  have hkind : c.kind = some .entropy := rfl
  have hquiet : c.kind ≠ some .write ∧ c.kind ≠ some .malloc := by
    rw [hkind]
    decide
  obtain ⟨a, ha, hs, calls⟩ := h.syscall (c := c) fun h => absurd h hquiet.1
  have heq : (⟨sysEntropy l.kernel s u, l.kernel, c.buf⟩ : Answer) = a := Option.some.inj ha
  have hbuf : a.buf = c.buf := by rw [← heq]
  have hkernel : a.kernel.errno = r.errno := by rw [← heq, h.errno]
  have hmem : stored l.mem 0 a.buf = r.mem := by
    rw [hbuf]
    exact (stored_behind l.mem 0).trans h.mem
  have hagrees := h.quiet hs calls (fun h => hquiet.1 h.1) hquiet.2 fun _ _ => rfl
  rw [hkernel] at hagrees
  exact ⟨_, _, _, kernelCall_some ha hmem, .entropy _, hagrees⟩

lemma Agrees.reseed (h : Agrees around own t₀ k₁ mem₀ l r) (seed : UInt32) :
    Agrees around own t₀ k₁ mem₀ { l with seed := seed } { r with seed := seed } :=
  { h with seed := rfl }

/-- **Every operation** that a program sees to comes back, with the answer of the runtime. -/
lemma replied (h : Agrees around own t₀ k₁ mem₀ l r) (fine : Fine own l op) (s : ℕ → UInt16)
    (u : ℕ → UInt8) : Replied around own t₀ k₁ mem₀ l r s u op := by
  cases op with
  | fopen => exact ⟨_, _, _, rfl, .fopen, h⟩
  | fclose => exact ⟨_, _, _, rfl, .fclose, h⟩
  | fwrite => exact replied_fwrite h fine
  | fread => exact replied_fread h fine
  | malloc len => exact replied_malloc h len
  | calloc => exact replied_calloc h fine
  | entropy => exact replied_entropy h
  | srand seed => exact ⟨_, _, _, rfl, .srand, h.reseed seed⟩
  | rand =>
    have hcall : l.call around s u .rand = some ((Stdlib.rand r.seed).1,
        { l with seed := (Stdlib.rand r.seed).2 }) := by
      rw [← h.seed]
      rfl
    exact ⟨_, _, _, hcall, .rand, h.reseed _⟩
  | errno =>
    refine ⟨_, _, _, rfl, ?_, h⟩
    rw [h.errno]
    exact .errno
  | load a =>
    refine ⟨_, _, _, rfl, ?_, h⟩
    rw [h.mem]
    exact .load
  | store a b =>
    refine ⟨_, _, _, rfl, .store, { h with mem := by rw [h.mem], frame := fun a' ha' => ?_ }⟩
    have hne : a' ≠ a.toNat := by
      rintro rfl
      exact ha' fine
    exact (Function.update_of_ne hne ..).trans (h.frame a' ha')

/-! ### Programs in a run -/

variable {fs : List UInt8 → Option (List UInt8)} {files : List PackedFile} {k k₀ : Kernel}
variable {blinkTime : ℕ} {romdisk : ℕ → UInt8} {keys : Keyboard.Keys} {entry : Entry}
variable {resume : Kernel → Option Kernel} {σ : Type} {P : Program σ} {x y : σ}

/-- The same program over the library and over the runtime. -/
lemma simulates : Simulates (Step around own P) (Asks (fontAt around) P) fun t t' =>
    t.1 = t'.1 ∧ Agrees around own t₀ k₁ mem₀ t.2 t'.2 := by
  rintro ⟨x, l⟩ t ⟨_, r⟩ ⟨rfl, h⟩ ⟨s, u, hop, fine, hl⟩
  obtain ⟨v, l', r', hl', hs, h'⟩ := replied h fine s u
  cases Option.some.inj (hl.symm.trans hl')
  exact ⟨_, .single (.serve hop hs), rfl, h'⟩

/-- What is known of a program that has come to `y`. -/
structure Hosted (around : ℤ → ℕ) (blinkTime : ℕ) (romdisk : ℕ → UInt8) (own : Owned)
    (P : Program σ) (keys : Keyboard.Keys) (entry : Entry) (resume : Kernel → Option Kernel)
    (k₁ : Kernel) (y : σ) (l : Library) : Prop where
  goes : ∀ op, P.next y = some op → Fine own l op → ∀ s u,
    ∃ v l', l.call around s u op = some (v, l')
  ends : P.next y = none → Goes around blinkTime romdisk (.running keys entry k₁ resume)
    (.prompt keys { l.kernel with mallocStart := defaultMallocLocation })

variable (around blinkTime) in
/-- **Programs and their library.** Whatever program runs that sees to what it has to, in any state
of any run of the system, and however it goes on with the answers: a run of it over the library and
the kernel is one over the runtime. What the runtime's page says is on the screen, no memory but the
program's own has changed, the next call of the library comes back if the program has seen to it,
and when the program returns the shell goes on to its prompt. -/
theorem library_refines (hd : Bootable fs files romdisk) (hk : Started around romdisk k₀ k)
    (run : Shell.Reaches around blinkTime romdisk (.prompt Shell.bootKeys k)
      (.running keys entry k₁ resume)) (P : Program σ) (x : σ) (mem : ℕ → UInt8) (seed : UInt32)
    (steps : Relation.ReflTransGen (Step around own P) (x, ⟨k₁, mem, seed⟩) (y, l)) :
    ∃ p r, Presents k₀.term k₁.machine p ∧
      Relation.ReflTransGen (Asks (fontAt around) P)
        (x, ⟨p, k₁.errno, k₁.mallocStart, seed, mem⟩) (y, r) ∧
      Agrees around own k₀.term k₁ mem l r ∧
      Hosted around blinkTime romdisk own P keys entry resume k₁ y l := by
  obtain ⟨⟨p, mode⟩, hsession, hm⟩ := run_matches hd hk run
  obtain ⟨f, args, hmode, hl⟩ := hm.loaded
  have hstart : Agrees around own k₀.term k₁ mem ⟨k₁, mem, seed⟩
      ⟨p, k₁.errno, k₁.mallocStart, seed, mem⟩ :=
    ⟨hm.presents, rfl, rfl, heap_lt hsession f args _ hmode, rfl, rfl, fun _ _ => rfl, [], by simp,
      rfl⟩
  obtain ⟨⟨_, r⟩, hasks, rfl, h⟩ := simulates.run (t := (x, ⟨p, _, _, _, _⟩)) ⟨rfl, hstart⟩ steps
  refine ⟨p, r, hm.presents, hasks, h, fun op _ fine s u => ?_, fun _ => ?_⟩
  · obtain ⟨v, l', -, hl', -⟩ := replied h fine s u
    exact ⟨v, l', hl'⟩
  · obtain ⟨calls, prints, hcalls⟩ := h.calls
    exact (goes_calls prints hcalls).tail (.exit (hl.resume l.kernel))

/-- A string, and a stream behind it. -/
def helloText : UInt32 := 0x333999
def helloStream : UInt32 := 0x33399C

/-- A program that writes the string to `stdout` and returns. -/
def hello : Program Bool where
  next | false => some (.fwrite helloText 1 2 helloStream)
       | true => none
  feed _ _ := true

def helloMemory : ℕ → UInt8 := fun a =>
  if a = 0x333999 then 72 else if a = 0x33399A then 73 else if a = 0x33399C then 1 else 0

def helloOwned : Owned := ⟨fun a => 0x333999 ≤ a ∧ a < 0x33399D, fun _ h => h.1⟩

lemma isString_hello : IsString (behind helloMemory helloText) 0 (ascii "HI") :=
  ⟨by unfold Stands; decide +kernel, by simp [ascii], by decide +kernel⟩

lemma fd_hello : fd helloMemory helloStream = 1 := by decide +kernel

/-- What the runtime makes of it. -/
lemma asks_hello {glyph : UInt8 → ℕ} {p : Page} {e top : ℕ} {r : Runtime}
    (h : Relation.ReflTransGen (Asks glyph hello) (false, ⟨p, e, top, 1, helloMemory⟩) (true, r)) :
    r.page = TextPage.puts glyph p (ascii "HI") := by
  obtain heq | ⟨⟨x, r₁⟩, hs, hrest⟩ := h.cases_head
  · cases heq
  cases hs with
  | serve hop hs =>
    cases hop
    cases hs with
    | prints str _ hstr =>
      obtain rfl := hstr.unique isString_hello
      -- it has returned
      obtain heq | ⟨_, hs, -⟩ := hrest.cases_head
      · cases heq
        rfl
      · cases hs with
        | serve hop => cases hop
    | unwritable hfd => exact absurd fd_hello hfd

lemma fine_hello (k : Kernel) :
    Fine helloOwned ⟨k, helloMemory, 1⟩ (.fwrite helloText 1 2 helloStream) := by
  have hstream : helloOwned.holds helloStream.toNat := ⟨by decide, by decide⟩
  refine ⟨hstream, fun _ => ⟨ascii "HI", isString_hello, by decide, fun a ha h => ?_⟩⟩
  have hlen : distance helloText a ≤ 2 := h
  rw [distance, show helloText.toNat = 0x333999 from rfl] at hlen
  exact ⟨by omega, by omega⟩

theorem library_refines_hello : ∃ romdisk keys entry k₁ resume t₀ p, ∃ l : Library,
    Presents t₀ k₁.machine p ∧
    Presents t₀ l.kernel.machine (TextPage.puts (fontAt fun _ => 0) p (ascii "HI")) ∧
    Goes (fun _ => 0) 500000 romdisk (.running keys entry k₁ resume)
      (.prompt keys { l.kernel with mallocStart := defaultMallocLocation }) := by
  obtain ⟨romdisk, k₀, k, keys, entry, k₁, resume, hd, hk, run⟩ := runs_program
  obtain ⟨-, -, -, -, -, hosted⟩ :=
    library_refines (fun _ => 0) 500000 hd hk run hello false helloMemory 1
      (.refl : Relation.ReflTransGen (Step _ helloOwned hello) _ _)
  obtain ⟨v, l, hl⟩ := hosted.goes _ rfl (fine_hello k₁) (fun _ => 0) fun _ => 0
  obtain ⟨p, r, hp, hasks, h, hosted⟩ :=
    library_refines (fun _ => 0) 500000 hd hk run hello false helloMemory 1
      (.single (.call _ _ rfl (fine_hello k₁) hl))
  refine ⟨romdisk, keys, entry, k₁, resume, k₀.term, p, l, hp, ?_, hosted.ends rfl⟩
  rw [← asks_hello hasks]
  exact h.presents

end Mono98.Libc
