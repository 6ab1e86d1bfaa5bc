import Mathlib.Algebra.Group.Nat.Defs
import Mathlib.Logic.Function.Basic
import Mono98.Lib.Words

/-!
Some instructions of an x86 processor in protected mode, decoded from memory.

Addresses are linear, words are of 32 bits and do not go round the end of the memory. The flags
are left out, since none of the instructions reads them; an interrupt saves them unseen.
-/

namespace Mono98.Lib.X86

open Mono98.Lib.Bytes Mono98.Lib.Words

/-- The registers, in the order of their codes. -/
inductive Reg
  | eax
  | ecx
  | edx
  | ebx
  | esp
  | ebp
  | esi
  | edi
  deriving DecidableEq

/-- The register with a code. -/
def Reg.of (n : ℕ) : Reg := [eax, ecx, edx, ebx, esp, ebp, esi, edi].getD (n % 8) eax

/-- The registers that a function has to leave as it has found them. -/
def Reg.saved : List Reg := [ebx, ebp, esi, edi]

inductive Instr
  | push (r : Reg)
  | pushImm (v : ℕ)
  | add (r : Reg) (v : ℕ)
  | sub (r : Reg) (v : ℕ)
  | mov (dst src : Reg)
  | movImm (r : Reg) (v : ℕ)
  | load (dst base : Reg) (disp : ℕ) -- `mov dst, [base + disp]`
  | loadAbs (a : ℕ) -- `mov eax, [a]`
  | storeByte (base : Reg) (disp : ℕ) (src : Reg) -- `mov byte [base + disp], src`
  | jmp (r : Reg)
  | leave
  | ret
  deriving DecidableEq

/-- A byte as a signed number, extended to 32 bits. -/
def sext (b : UInt8) : ℕ := if b.toNat < 128 then b.toNat else b.toNat + (2 ^ 32 - 256)

/-- The instruction whose bytes are those of `b`, and its length. -/
def decode (b : ℕ → UInt8) : Option (Instr × ℕ) :=
  let op := (b 0).toNat
  let mode := (b 1).toNat / 64
  let reg := (b 1).toNat / 8 % 8
  let rm := (b 1).toNat % 8
  if 0x50 ≤ op ∧ op < 0x58 then some (.push (.of op), 1)
  else if op = 0x68 then some (.pushImm (load b 4 1), 5)
  else if op = 0x6A then some (.pushImm (sext (b 1)), 2)
  else if op = 0x83 ∧ mode = 3 ∧ reg = 0 then some (.add (.of rm) (sext (b 2)), 3)
  else if op = 0x83 ∧ mode = 3 ∧ reg = 5 then some (.sub (.of rm) (sext (b 2)), 3)
  else if op = 0x88 ∧ mode = 1 ∧ reg < 4 ∧ rm ≠ 4 then
    some (.storeByte (.of rm) (sext (b 2)) (.of reg), 3)
  else if op = 0x89 ∧ mode = 3 then some (.mov (.of rm) (.of reg), 2)
  else if op = 0x8B ∧ mode = 1 ∧ rm ≠ 4 then some (.load (.of reg) (.of rm) (sext (b 2)), 3)
  else if op = 0xA1 then some (.loadAbs (load b 4 1), 5)
  else if 0xB8 ≤ op ∧ op < 0xC0 then some (.movImm (.of op) (load b 4 1), 5)
  else if op = 0xC3 then some (.ret, 1)
  else if op = 0xC9 then some (.leave, 1)
  else if op = 0xFF ∧ mode = 3 ∧ reg = 4 then some (.jmp (.of rm), 2)
  else none

structure Cpu where
  reg : Reg → ℕ
  eip : ℕ
  mem : ℕ → UInt8
  reg_lt : ∀ r, reg r < 2 ^ 32

lemma update_lt {f : Reg → ℕ} (h : ∀ r, f r < 2 ^ 32) (r : Reg) (v r' : _) :
    Function.update f r (v % 2 ^ 32) r' < 2 ^ 32 := by
  rw [Function.update_apply]
  split_ifs
  · exact Nat.mod_lt v (by decide)
  · exact h r'

namespace Cpu

variable (c : Cpu)

def set (r : Reg) (v : ℕ) : Cpu :=
  { c with
    reg := Function.update c.reg r (v % 2 ^ 32)
    reg_lt := update_lt c.reg_lt r v }

def push (v : ℕ) : Cpu :=
  let c := c.set .esp (c.reg .esp + (2 ^ 32 - 4))
  { c with mem := storeWord (c.reg .esp) v c.mem }

/-- The word on top of the stack. -/
def top : ℕ := word c.mem (c.reg .esp)

/-- `pop r`. -/
def pop (r : Reg) : Cpu := (c.set .esp (c.reg .esp + 4)).set r c.top

/-- `popa`, where the word for `esp` is dropped. -/
def popa : Cpu :=
  [Reg.edi, .esi, .ebp, .esp, .ebx, .edx, .ecx, .eax].foldl
    (fun c r => if r = .esp then c.set .esp (c.reg .esp + 4) else c.pop r) c

/-- `pusha`: the word for `esp` is the one before the instruction. -/
def pusha : Cpu :=
  [Reg.eax, .ecx, .edx, .ebx, .esp, .ebp, .esi, .edi].foldl (fun c' r => c'.push (c.reg r)) c

/-- An interrupt: the flags, the code segment and `eip` are saved. -/
def trap (flags cs : UInt32) : Cpu := ((c.push flags.toNat).push cs.toNat).push c.eip

/-- `iret`. -/
def iret : Cpu := { c.set .esp (c.reg .esp + 12) with eip := c.top }

/-- What an instruction does, when `eip` is already behind it. -/
def exec : Instr → Cpu
  | .push r => c.push (c.reg r)
  | .pushImm v => c.push v
  | .add r v => c.set r (c.reg r + v)
  | .sub r v => c.set r (c.reg r + (2 ^ 32 - v))
  | .mov dst src => c.set dst (c.reg src)
  | .movImm r v => c.set r v
  | .load dst base disp => c.set dst (word c.mem ((c.reg base + disp) % 2 ^ 32))
  | .loadAbs a => c.set .eax (word c.mem a)
  | .storeByte base disp src =>
    { c with
      mem := Function.update c.mem ((c.reg base + disp) % 2 ^ 32) (UInt8.ofNat (c.reg src)) }
  | .jmp r => { c with eip := c.reg r }
  | .leave => (c.set .esp (c.reg .ebp)).pop .ebp
  | .ret => { c.set .esp (c.reg .esp + 4) with eip := c.top }

/-- The next step; an instruction that is not known has none. -/
def step : Option Cpu :=
  (decode fun i => c.mem (c.eip + i)).map fun (i, n) => { c with eip := c.eip + n }.exec i

@[simp] lemma set_mem (r : Reg) (v : ℕ) : (c.set r v).mem = c.mem := rfl

@[simp] lemma set_eip (r : Reg) (v : ℕ) : (c.set r v).eip = c.eip := rfl

@[simp] lemma set_self (r : Reg) (v : ℕ) : (c.set r v).reg r = v % 2 ^ 32 := Function.update_self ..

lemma push_esp (v : ℕ) : (c.push v).reg .esp = (c.reg .esp + (2 ^ 32 - 4)) % 2 ^ 32 := by
  simp only [push, set_self]

lemma push_of_ne {r : Reg} (h : r ≠ .esp) (v : ℕ) : (c.push v).reg r = c.reg r := by
  simp only [push, set, Function.update_of_ne h]

lemma push_mem (v : ℕ) : (c.push v).mem = storeWord ((c.push v).reg .esp) v c.mem := by
  simp only [push, set_mem]

@[simp] lemma set_of_ne {r r' : Reg} (h : r' ≠ r) (v : ℕ) : (c.set r v).reg r' = c.reg r' :=
  Function.update_of_ne h ..

end Cpu

/-! ### Code in memory -/

variable {c : Cpu} {base off n : ℕ} {code : List UInt8} {i : Instr}

lemma decode_congr {b b' : ℕ → UInt8} (h : ∀ k < 5, b k = b' k) : decode b = decode b' := by
  have h0 := h 0 (by decide)
  have h1 := h 1 (by decide)
  have h2 := h 2 (by decide)
  have hl : load b 4 1 = load b' 4 1 := load_congr fun k _ hk => h k (by omega)
  simp only [decode, h0, h1, h2, hl]

/-- The step of the instruction at some place of code that stands in memory. -/
lemma step_code (hc : Stands c.mem base code) (he : c.eip = base + off)
    (hoff : off + 5 ≤ code.length) (hd : (decode fun k => code.getD (off + k) 0) = some (i, n)) :
    c.step = some ({ c with eip := base + off + n }.exec i) := by
  have hbytes : ∀ k < 5, c.mem (c.eip + k) = code.getD (off + k) 0 := by
    intro k hk
    have hlt : off + k < code.length := by omega
    rw [he, Nat.add_assoc, hc _ hlt, List.getD_eq_getElem?_getD, List.getElem?_eq_getElem hlt]
    rfl
  rw [Cpu.step, decode_congr hbytes, hd, he]
  rfl

/-! ### The stack -/

/-- The words `vs` have been pushed, the last one on top, onto a stack that ended at `s`. In what
is kept of memory, nothing has changed beside the stack. -/
structure Pushed (keep : ℕ → Prop) (mem : ℕ → UInt8) (s : ℕ) (vs : List ℕ) (c : Cpu) : Prop where
  esp : c.reg .esp + 4 * vs.length = s
  words : ∀ k (hk : k < vs.length), word c.mem (s - 4 * (k + 1)) = vs[k]
  frame : ∀ a, s ≤ a → keep a → c.mem a = mem a

variable {keep : ℕ → Prop} {mem : ℕ → UInt8} {s v : ℕ} {vs : List ℕ} {r : Reg}

lemma pushed_nil (keep : ℕ → Prop) (c : Cpu) : Pushed keep c.mem (c.reg .esp) [] c where
  esp := rfl
  words := fun _ h => absurd h (Nat.not_lt_zero _)
  frame := fun _ _ _ => rfl

/-- One more word, where there is room for it. -/
lemma Pushed.push (h : Pushed keep mem s vs c) (room : 4 ≤ c.reg .esp) (hv : v < 2 ^ 32) :
    Pushed keep mem s (vs ++ [v]) (c.push v) := by
  obtain ⟨hesp, hwords, hframe⟩ := h
  have hlt := c.reg_lt .esp
  have hsp : (c.push v).reg .esp = c.reg .esp - 4 := by
    rw [Cpu.push_esp]
    omega
  have hmem : (c.push v).mem = storeWord (c.reg .esp - 4) v c.mem := by rw [Cpu.push_mem, hsp]
  refine ⟨?_, fun k hk => ?_, fun a ha hk => ?_⟩
  · rw [hsp, List.length_append, List.length_singleton]
    omega
  · rw [hmem]
    rw [List.length_append, List.length_singleton] at hk
    rcases Nat.lt_or_ge k vs.length with hlt | hge
    · rw [List.getElem_append_left hlt, word_storeWord_apart (by omega)]
      exact hwords k hlt
    · obtain rfl : k = vs.length := by omega
      have ha : s - 4 * (vs.length + 1) = c.reg .esp - 4 := by omega
      rw [ha, word_storeWord _ _ hv]
      simp
  · rw [hmem, storeWord, if_neg (by omega)]
    exact hframe a ha hk

/-- A word of the stack, counted from the top. -/
lemma Pushed.at (h : Pushed keep mem s vs c) {k : ℕ} (hk : k < vs.length) :
    word c.mem (c.reg .esp + 4 * k) = vs[vs.length - 1 - k] := by
  have := h.words (vs.length - 1 - k) (by omega)
  have hesp := h.esp
  have ha : s - 4 * (vs.length - 1 - k + 1) = c.reg .esp + 4 * k := by omega
  rwa [ha] at this

/-- The stack, when nobody has touched what is kept of it. -/
lemma Pushed.kept {c' : Cpu} (h : Pushed keep mem s vs c) (hesp : c'.reg .esp = c.reg .esp)
    (hmem : ∀ a, c.reg .esp ≤ a → keep a → c'.mem a = c.mem a) (hk : ∀ a < s, keep a) :
    Pushed keep mem s vs c' where
  esp := hesp ▸ h.esp
  words := fun k hlt => by
    have := h.esp
    rw [← h.words k hlt]
    exact load_congr fun a h₁ h₂ => hmem a (by omega) (hk a (by omega))
  frame := fun a ha hka => by
    have := h.esp
    exact (hmem a (by omega) hka).trans (h.frame a ha hka)

/-- The word on top is dropped. -/
lemma Pushed.drop (h : Pushed keep mem s (vs ++ [v]) c) (hs : s < 2 ^ 32) :
    Pushed keep mem s vs (c.set .esp (c.reg .esp + 4)) := by
  have hesp := h.esp
  rw [List.length_append, List.length_singleton] at hesp
  refine ⟨?_, fun k hk => ?_, h.frame⟩
  · rw [Cpu.set_self, Nat.mod_eq_of_lt (by omega)]
    omega
  · rw [Cpu.set_mem, h.words k (by simp; omega), List.getElem_append_left hk]

lemma Pushed.top (h : Pushed keep mem s (vs ++ [v]) c) : c.top = v := by
  have hat := h.at (k := 0) (by simp)
  rw [Nat.mul_zero, Nat.add_zero] at hat
  rw [Cpu.top, hat]
  simp

/-- The words of some registers are pushed, in the order of a list. -/
lemma Pushed.pushes {f : Reg → ℕ} (hf : ∀ r, f r < 2 ^ 32) (rs : List Reg)
    (h : Pushed keep mem s vs c) (room : 4 * rs.length ≤ c.reg .esp) :
    Pushed keep mem s (vs ++ rs.map f) (rs.foldl (fun c r => c.push (f r)) c) := by
  induction rs generalizing c vs with
  | nil => simpa using h
  | cons r rs ih =>
    rw [List.length_cons] at room
    have hpush := h.push (by omega) (hf r)
    have hesp := hpush.esp
    have := h.esp
    rw [List.length_append, List.length_singleton] at hesp
    have hall := ih hpush (by omega)
    rwa [List.append_assoc] at hall

/-- Registers are popped, where a word for `esp` is dropped. -/
lemma Pushed.pops {f : Reg → ℕ} (hf : ∀ r, f r < 2 ^ 32) (hs : s < 2 ^ 32) (rs : List Reg)
    (h : Pushed keep mem s (vs ++ (rs.map f).reverse) c) {c' : Cpu}
    (hc : rs.foldl (fun c r => if r = .esp then c.set .esp (c.reg .esp + 4) else c.pop r) c = c') :
    Pushed keep mem s vs c' ∧ ∀ r ≠ .esp, r ∈ rs ∨ c.reg r = f r → c'.reg r = f r := by
  induction rs generalizing c with
  | nil =>
    subst hc
    exact ⟨by simpa using h, fun r _ hr => hr.resolve_left List.not_mem_nil⟩
  | cons r rs ih =>
    rw [List.map_cons, List.reverse_cons, ← List.append_assoc] at h
    have hdrop := h.drop hs
    rw [List.foldl_cons] at hc
    by_cases hr : r = .esp
    · rw [if_pos hr] at hc
      obtain ⟨hp, hregs⟩ := ih hdrop hc
      refine ⟨hp, fun r' hr' h' => hregs r' hr' ?_⟩
      rw [Cpu.set_of_ne _ hr']
      exact h'.imp_left fun hm => (List.mem_cons.mp hm).resolve_left (hr ▸ hr')
    · rw [if_neg hr] at hc
      have hpop : Pushed keep mem s (vs ++ (rs.map f).reverse) (c.pop r) :=
        ⟨(Cpu.set_of_ne _ (Ne.symm hr) _).symm ▸ hdrop.esp, hdrop.words, hdrop.frame⟩
      obtain ⟨hp, hregs⟩ := ih hpop hc
      refine ⟨hp, fun r' hr' h' => hregs r' hr' ?_⟩
      by_cases he : r' = r
      · rw [he, Cpu.pop, Cpu.set_self, h.top, Nat.mod_eq_of_lt (hf r)]
        exact Or.inr rfl
      · rw [Cpu.pop, Cpu.set_of_ne _ he, Cpu.set_of_ne _ hr']
        exact h'.imp_left fun hm => (List.mem_cons.mp hm).resolve_left he

/-! ### Interrupts -/

/-- A function without arguments has come back to the instruction behind its call. In what is kept
of memory it has changed nothing above its frame. -/
structure Returned (keep : ℕ → Prop) (c c' : Cpu) : Prop where
  esp : c'.reg .esp = c.reg .esp + 4
  mem : ∀ a, c.reg .esp + 4 ≤ a → keep a → c'.mem a = c.mem a

/-- Nothing that a program can see has changed. -/
structure Resumed (keep : ℕ → Prop) (c c' : Cpu) : Prop where
  reg : c'.reg = c.reg
  eip : c'.eip = c.eip
  mem : ∀ a, c.reg .esp ≤ a → keep a → c'.mem a = c.mem a

lemma Resumed.refl (keep : ℕ → Prop) (c : Cpu) : Resumed keep c c := ⟨rfl, rfl, fun _ _ _ => rfl⟩

lemma Resumed.trans {c' c'' : Cpu} (h : Resumed keep c c') (h' : Resumed keep c' c'') :
    Resumed keep c c'' where
  reg := h'.reg.trans h.reg
  eip := h'.eip.trans h.eip
  mem := fun a ha hk => (h'.mem a (h.reg ▸ ha) hk).trans (h.mem a ha hk)

/-- **An interrupt is not seen.** The program is interrupted, the registers are saved, the handler
is called and comes back, and they are restored: with room for it on the stack, the program goes on
as if nothing had happened. -/
theorem resumed_of_returned (room : 48 ≤ c.reg .esp) (he : c.eip < 2 ^ 32)
    (hk : ∀ a < c.reg .esp, keep a) (flags cs back : UInt32) {c' : Cpu}
    (h : Returned keep (((c.trap flags cs).pusha).push back.toNat) c') :
    Resumed keep c c'.popa.iret := by
  have hs := c.reg_lt .esp
  have hlen : ∀ a b c : ℕ, ([] ++ [a] : List ℕ).length = 1 ∧ ([] ++ [a] ++ [b]).length = 2 ∧
    ([] ++ [a] ++ [b] ++ [c]).length = 3 := fun _ _ _ => ⟨rfl, rfl, rfl⟩
  obtain ⟨l₁, l₂, l₃⟩ := hlen flags.toNat cs.toNat c.eip
  -- the frame of the interrupt, and the registers behind it
  have h₁ := (pushed_nil keep c).push (by omega) flags.toNat_lt
  have e₁ := h₁.esp
  have h₂ := h₁.push (by omega) cs.toNat_lt
  have e₂ := h₂.esp
  have htrap : Pushed keep c.mem (c.reg .esp) _ (c.trap flags cs) := h₂.push (by omega) he
  have e₃ := htrap.esp
  have hpusha : Pushed keep c.mem (c.reg .esp) _ (c.trap flags cs).pusha :=
    Pushed.pushes (c.trap flags cs).reg_lt [.eax, .ecx, .edx, .ebx, .esp, .ebp, .esi, .edi] htrap
      (by simp only [List.length_cons, List.length_nil]; omega)
  have e₄ := hpusha.esp
  rw [List.length_append, l₃] at e₄
  simp only [List.length_map, List.length_cons, List.length_nil] at e₄
  -- the handler leaves them alone
  have hback : c'.reg .esp = (c.trap flags cs).pusha.reg .esp := by
    rw [h.esp, Cpu.push_esp]
    omega
  have hkept := hpusha.kept hback (fun a ha hka => ?_) hk
  · -- they are popped
    obtain ⟨hp, hregs⟩ := Pushed.pops (c.trap flags cs).reg_lt hs
      [.edi, .esi, .ebp, .esp, .ebx, .edx, .ecx, .eax] hkept rfl
    have e₅ := hp.esp
    refine ⟨funext fun r => ?_, hp.top, hp.frame⟩
    by_cases hr : r = .esp
    · subst hr
      show (c'.popa.set .esp _).reg .esp = _
      rw [Cpu.set_self, Cpu.popa, Nat.mod_eq_of_lt (by omega)]
      omega
    · show (c'.popa.set .esp _).reg r = _
      rw [Cpu.set_of_ne _ hr, Cpu.popa, hregs r hr (Or.inl (by cases r <;> simp)), Cpu.trap,
        Cpu.push_of_ne _ hr, Cpu.push_of_ne _ hr, Cpu.push_of_ne _ hr]
  · rw [h.mem a (by rw [Cpu.push_esp]; omega) hka, Cpu.push_mem, storeWord, Cpu.push_esp,
      if_neg (by omega)]

end Mono98.Lib.X86
