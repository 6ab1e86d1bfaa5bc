import Mono98.Lib.Pic
import Mono98.Lib.Simulation
import Mono98.Shell

/-!
The interrupts of the machine.

`init_idt` fills three gates of the interrupt table, moves the vectors of the two controllers and
masks all lines but those of the timer and the keyboard. From then on the program is interrupted
between any two of its steps, whatever lines the devices raise.
-/

namespace Mono98.Interrupts

open Mono98.Shell Mono98.Process Mono98.Lib.Pic Mono98.Lib.Simulation

/-! ### The interrupt table -/

/-- `struct idt_entry`. -/
structure IdtEntry where
  offsetLow : UInt16
  selector : UInt16
  zero : UInt8
  typeAttr : UInt8
  offsetHigh : UInt16

/-- `struct idt_ptr`, with the table that it points to. -/
structure IdtPtr where
  limit : ℕ
  base : ℕ → IdtEntry

/-- The handlers that have an entry in assembly. -/
inductive Isr
  | timer -- `asm_interrupt_timer_handler`
  | keyboard -- `asm_interrupt_keyboard_handler`
  | syscall -- `asm_interrupt_syscall_handler`
  deriving DecidableEq

/-- Where the linker has put the handlers: no two of them are at one address. -/
structure Layout where
  address : Isr → UInt32
  distinct : Function.Injective address

def setIdtEntry (idt : ℕ → IdtEntry) (num : ℕ) (handler : UInt32) : ℕ → IdtEntry :=
  Function.update idt num
    { offsetLow := (handler &&& 0xFFFF).toUInt16
      selector := 0x08
      zero := 0
      typeAttr := 0x8E
      offsetHigh := ((handler >>> 16) &&& 0xFFFF).toUInt16 }

/-- The limit is the offset of the last byte of the 256 entries. -/
def loadIdt (idt : ℕ → IdtEntry) : IdtPtr := ⟨8 * 256 - 1, idt⟩

/-- The address that the processor jumps to for a gate, if the gate is present. -/
def IdtEntry.target (e : IdtEntry) : Option UInt32 :=
  if e.typeAttr &&& 0x80 ≠ 0 then some (e.offsetLow.toUInt32 ||| e.offsetHigh.toUInt32 <<< 16)
  else none

variable (layout : Layout)

/-- The handler that a vector leads to; there is none when the processor faults. -/
def IdtPtr.handler (idt : IdtPtr) (vector : ℕ) : Option Isr :=
  if 8 * vector + 7 ≤ idt.limit then
    (idt.base vector).target.bind fun a =>
      [Isr.timer, Isr.keyboard, Isr.syscall].find? fun isr => layout.address isr = a
  else none

/-! ### The controllers -/

/-- `io_wait()`, a byte to a port that no controller has. -/
def ioWait (p : Pair) : Pair := p.outb 0x80 0

/-- `PIC_remap`: the masks are read before the initialization clears them. -/
def picRemap (offset1 offset2 : UInt8) (p : Pair) : Pair :=
  let a1 := p.inb 0x21
  let a2 := p.inb 0xA1
  let p := ioWait (p.outb 0x20 0x11)
  let p := ioWait (p.outb 0xA0 0x11)
  let p := ioWait (p.outb 0x21 offset1)
  let p := ioWait (p.outb 0xA1 offset2)
  let p := ioWait (p.outb 0x21 4)
  let p := ioWait (p.outb 0xA1 2)
  let p := ioWait (p.outb 0x21 0x01)
  let p := ioWait (p.outb 0xA1 0x01)
  (p.outb 0x21 a1).outb 0xA1 a2

/-- `PIC_sendEOI`. -/
def picSendEOI (irq : UInt8) (p : Pair) : Pair :=
  let p := if 8 ≤ irq then p.outb 0xA0 0x20 else p
  p.outb 0x20 0x20

def initIdt (idt : ℕ → IdtEntry) (p : Pair) : IdtPtr × Pair :=
  let idt := setIdtEntry idt 0x20 (layout.address .timer)
  let idt := setIdtEntry idt 0x21 (layout.address .keyboard)
  let idt := setIdtEntry idt 0x33 (layout.address .syscall)
  let p := picRemap 0x20 0x28 p
  (loadIdt idt, (p.outb 0x21 0xFC).outb 0xA1 0xFF)

/-! ### The machine -/

/-- The controllers, the interrupt table, the data port of the keyboard, and the program that is
interrupted. Beside them, the bytes that the keyboard has sent, and those that
`process_scancode` has been called with. -/
structure Board where
  pair : Pair
  idt : IdtPtr
  data : UInt8
  shell : State
  sent : List UInt8
  passed : List UInt8

namespace Board

variable (b : Board)

/-- `interrupt_timer_handler`. -/
def timerHandler : Board := { b with pair := picSendEOI 0 b.pair }

/-- `interrupt_keyboard_handler`. -/
def keyboardHandler : Board :=
  let scancode := b.data
  { b with
    shell := b.shell.interrupt scancode
    passed := b.passed ++ [scancode]
    pair := picSendEOI 1 b.pair }

/-- The handler at a gate, up to its `iret`. `interrupt_syscall_handler` is for a software
interrupt that no build but the one for debugging makes. -/
def handle : Isr → Option Board
  | .timer => some b.timerHandler
  | .keyboard => some b.keyboardHandler
  | .syscall => none

/-- The processor takes the interrupt that the controllers ask for. -/
def interrupt (layout : Layout) : Option Board :=
  b.pair.interrupt.bind fun (vector, pair) =>
    (b.idt.handler layout vector).bind fun isr => { b with pair := pair }.handle isr

/-- The controllers ask for an interrupt that leads nowhere. -/
def Faults (layout : Layout) : Prop :=
  ∃ vector pair, b.pair.interrupt = some (vector, pair) ∧ b.idt.handler layout vector = none

/-- The keyboard sends a byte. -/
def send (scancode : UInt8) : Board :=
  { b with data := scancode, pair := b.pair.raise 1, sent := b.sent ++ [scancode] }

end Board

/-- The machine after `init_idt`. -/
def start (idt : ℕ → IdtEntry) (p : Pair) (data : UInt8) (s : State) : Board :=
  ⟨(initIdt layout idt p).2, (initIdt layout idt p).1, data, s, [], []⟩

variable (around : ℤ → ℕ) (blinkTime : ℕ) (romdisk : ℕ → UInt8)

/-- The program takes a step, a device other than the keyboard raises its line, the keyboard
sends a byte once the one before has been read, or the processor takes an interrupt. -/
inductive Step (b : Board) : Board → Prop
  | next {s} (h : Next around blinkTime romdisk b.shell s) : Step b { b with shell := s }
  | raise (n : Fin 16) (h : n ≠ 1) : Step b { b with pair := b.pair.raise n }
  | send (scancode : UInt8) (h : b.pair.master.request 1 = false) : Step b (b.send scancode)
  | interrupt {b'} (h : b.interrupt layout = some b') (bound : b'.shell.Bounded) : Step b b'

def Reaches : Board → Board → Prop :=
  Relation.ReflTransGen (Step layout around blinkTime romdisk)

/-! ### The gates -/

variable {layout around blinkTime romdisk} {idt : ℕ → IdtEntry} {p p' : Pair} {i : Fin 8}

/-- The two halves of an address, put together. -/
lemma halves (a : UInt32) : (a &&& 0xFFFF).toUInt16.toUInt32 |||
    ((a >>> 16) &&& 0xFFFF).toUInt16.toUInt32 <<< 16 = a := by
  apply UInt32.toNat_inj.mp
  have hlt := a.toNat_lt
  have low : ∀ n : ℕ, (n &&& 65535) % 65536 = n % 65536 := fun n => by
    rw [show 65535 = 2 ^ 16 - 1 by rfl, Nat.and_two_pow_sub_one_eq_mod, Nat.mod_mod]
  have high : (a.toNat >>> 16 % 65536) <<< 16 % 4294967296 = (a.toNat / 65536) <<< 16 := by
    rw [Nat.shiftRight_eq_div_pow, Nat.shiftLeft_eq, Nat.shiftLeft_eq]
    omega
  simp only [UInt32.toNat_or, UInt16.toNat_toUInt32, UInt32.toNat_toUInt16, UInt32.toNat_and,
    UInt32.toNat_shiftLeft, UInt32.toNat_shiftRight]
  simp only [UInt32.reduceToNat, Nat.reducePow, Nat.reduceMod, low, high]
  rw [Nat.or_comm, ← Nat.shiftLeft_add_eq_or_of_lt (Nat.mod_lt _ (by decide)), Nat.shiftLeft_eq]
  omega

lemma target_setIdtEntry (idt : ℕ → IdtEntry) (num : ℕ) (handler : UInt32) :
    (setIdtEntry idt num handler num).target = some handler := by
  rw [setIdtEntry, Function.update_self, IdtEntry.target,
    if_pos (show (0x8E : UInt8) &&& 0x80 ≠ 0 by decide)]
  exact congrArg some (halves handler)

lemma setIdtEntry_of_ne (idt : ℕ → IdtEntry) {num n : ℕ} (handler : UInt32) (h : n ≠ num) :
    setIdtEntry idt num handler n = idt n := Function.update_of_ne h _ _

/-- A gate leads to the handler whose address it has. -/
lemma handler_eq {idt : IdtPtr} {vector : ℕ} {isr : Isr} (hl : 8 * vector + 7 ≤ idt.limit)
    (h : (idt.base vector).target = some (layout.address isr)) :
    idt.handler layout vector = some isr := by
  have hisr : ∀ j, layout.address j = layout.address isr ↔ j = isr :=
    fun j => ⟨fun h => layout.distinct h, fun h => h ▸ rfl⟩
  rw [IdtPtr.handler, if_pos hl, h, Option.bind_some]
  simp only [hisr]
  cases isr <;> rfl

/-- **The gates**: the vectors of the timer and of the keyboard lead to their handlers. -/
lemma initIdt_gates (layout : Layout) (idt : ℕ → IdtEntry) (p : Pair) :
    (initIdt layout idt p).1.handler layout 0x20 = some .timer ∧
      (initIdt layout idt p).1.handler layout 0x21 = some .keyboard := by
  constructor
  · refine handler_eq (show 8 * 0x20 + 7 ≤ 8 * 256 - 1 by decide) ?_
    simp only [initIdt, loadIdt]
    rw [setIdtEntry_of_ne _ _ (by decide), setIdtEntry_of_ne _ _ (by decide), target_setIdtEntry]
  · refine handler_eq (show 8 * 0x21 + 7 ≤ 8 * 256 - 1 by decide) ?_
    simp only [initIdt, loadIdt]
    rw [setIdtEntry_of_ne _ _ (by decide), target_setIdtEntry]

/-! ### The controllers after the remapping -/

/-- The vectors are those of the gates, all lines but two are masked, and nothing is in
service. -/
structure Armed (p : Pair) : Prop where
  expects : p.master.expects = .mask
  offset : p.master.offset = 0x20
  mask : p.master.mask = 0xFC
  idle : p.master.Idle
  slave : p.slave.mask = 0xFF

/-- **The remapping**, whatever the controllers have been set up for before. -/
lemma armed_initIdt (layout : Layout) (idt : ℕ → IdtEntry) (p : Pair) :
    Armed (initIdt layout idt p).2 := ⟨rfl, rfl, rfl, fun _ => rfl, rfl⟩

lemma Armed.raise (h : Armed p) (n : Fin 16) : Armed (p.raise n) := by
  unfold Pair.raise
  split_ifs
  · exact ⟨h.expects, h.offset, h.mask, h.idle, h.slave⟩
  · exact ⟨h.expects, h.offset, h.mask, h.idle, h.slave⟩

lemma masked_master {c : Chip} (h : c.mask = 0xFC) (i : Fin 8) : c.masked i = decide (2 ≤ i) := by
  rw [Chip.masked, h]
  revert i
  decide

/-- The lines of the timer and of the keyboard are the only ones that are heard. -/
lemma Armed.output (h : Armed p) (ho : p.wired.output = some i) :
    p.master.request i = true ∧ (i = 0 ∨ i = 1) := by
  obtain ⟨hr, hm⟩ := output_request ho
  have hi : i < 2 := by
    rw [masked_master (c := p.wired) h.mask i] at hm
    simpa using hm
  have hne : i ≠ 2 := fun he => by rw [he] at hi; exact absurd hi (by decide)
  have hr : Function.update p.master.request 2 p.slave.output.isSome i = true := hr
  rw [Function.update_of_ne hne] at hr
  exact ⟨hr, by omega⟩

lemma Armed.interrupt (h : Armed p) {vector : ℕ} (hi : p.interrupt = some (vector, p')) :
    ∃ i : Fin 8, p.master.request i = true ∧ (i = 0 ∨ i = 1) ∧ vector = 0x20 + i.val ∧
      p' = ⟨p.master.acknowledge i, p.slave⟩ := by
  unfold Pair.interrupt at hi
  cases ho : p.wired.output with
  | none => rw [ho] at hi; cases hi
  | some i =>
    obtain ⟨hr, hcases⟩ := h.output ho
    have hne : i ≠ 2 := fun he => by rw [he] at hcases; revert hcases; decide
    rw [ho] at hi
    simp only [if_neg hne, Option.some.injEq, Prod.mk.injEq] at hi
    obtain ⟨rfl, rfl⟩ := hi
    exact ⟨i, hr, hcases, by rw [h.offset]; rfl, rfl⟩

/-- The handler ends its interrupt. -/
lemma Armed.sendEOI (h : Armed p) (i : Fin 8) {irq : UInt8} (hirq : irq < 8) :
    picSendEOI irq ⟨p.master.acknowledge i, p.slave⟩ =
      { p with
        master := { p.master with request := Function.update p.master.request i false } } := by
  have hnot : ¬ 8 ≤ irq := by simpa using hirq
  rw [picSendEOI, if_neg hnot, Pair.outb, if_pos rfl]
  simp only [acknowledge_end h.idle]

/-- The request of a line has been served. -/
def served (p : Pair) (i : Fin 8) : Pair :=
  { p with master := { p.master with request := Function.update p.master.request i false } }

lemma Armed.served (h : Armed p) (i : Fin 8) : Armed (served p i) :=
  ⟨h.expects, h.offset, h.mask, h.idle, h.slave⟩

lemma served_request (p : Pair) (i j : Fin 8) :
    (served p i).master.request j = if j = i then false else p.master.request j :=
  Function.update_apply _ _ _ _

/-! ### Runs of the machine -/

variable {s₀ : State} {b b' : Board} {data : UInt8}

/-- What every run of the machine keeps. -/
structure Carries (layout : Layout) (around : ℤ → ℕ) (blinkTime : ℕ) (romdisk : ℕ → UInt8)
    (s₀ : State) (b : Board) : Prop where
  armed : Armed b.pair
  timer : b.idt.handler layout 0x20 = some .timer
  keyboard : b.idt.handler layout 0x21 = some .keyboard
  run : Shell.Reaches around blinkTime romdisk s₀ b.shell
  sent : b.sent = b.passed ++ if b.pair.master.request 1 then [b.data] else []

lemma carries_start (layout : Layout) (idt : ℕ → IdtEntry) (p : Pair) (data : UInt8)
    (s₀ : State) :
    Carries layout around blinkTime romdisk s₀ (start layout idt p data s₀) :=
  ⟨armed_initIdt layout idt p, (initIdt_gates layout idt p).1, (initIdt_gates layout idt p).2,
    .refl, rfl⟩

/-- An interrupt is one of the timer, or one of the keyboard. -/
lemma Carries.interrupt (h : Carries layout around blinkTime romdisk s₀ b) {vector : ℕ}
    (hi : b.pair.interrupt = some (vector, p')) :
    b.pair.master.request 0 = true ∧
      b.interrupt layout = some { b with pair := served b.pair 0 } ∨
    b.pair.master.request 1 = true ∧
      b.interrupt layout = some { b with
        shell := b.shell.interrupt b.data
        passed := b.passed ++ [b.data]
        pair := served b.pair 1 } := by
  obtain ⟨i, hr, hcases, rfl, rfl⟩ := h.armed.interrupt hi
  rw [Board.interrupt, hi]
  rcases hcases with rfl | rfl
  · have hg : b.idt.handler layout (0x20 + (0 : Fin 8).val) = some .timer := h.timer
    have hend := h.armed.sendEOI 0 (show (0 : UInt8) < 8 by decide)
    refine Or.inl ⟨hr, ?_⟩
    simp only [Option.bind_some, hg, Board.handle, Board.timerHandler, hend]
    rfl
  · have hg : b.idt.handler layout (0x20 + (1 : Fin 8).val) = some .keyboard := h.keyboard
    have hend := h.armed.sendEOI 1 (show (1 : UInt8) < 8 by decide)
    refine Or.inr ⟨hr, ?_⟩
    simp only [Option.bind_some, hg, Board.handle, Board.keyboardHandler, hend]
    rfl

lemma interrupt_pending (hb : b.interrupt layout = some b') :
    ∃ vector p', b.pair.interrupt = some (vector, p') := by
  obtain ⟨⟨vector, p'⟩, hi, -⟩ := Option.bind_eq_some_iff.mp hb
  exact ⟨vector, p', hi⟩

lemma raise_request {n : Fin 16} (h : n ≠ 1) (p : Pair) :
    (p.raise n).master.request 1 = p.master.request 1 := by
  unfold Pair.raise
  split_ifs with hn
  · have hne : (1 : Fin 8) ≠ ⟨n, hn⟩ := fun he => h (Fin.ext (Fin.ext_iff.mp he).symm)
    show Function.update p.master.request ⟨n, hn⟩ true 1 = _
    exact Function.update_of_ne hne _ _
  · rfl

/-- A step of the machine. -/
lemma Carries.step (h : Carries layout around blinkTime romdisk s₀ b)
    (hs : Step layout around blinkTime romdisk b b') :
    Carries layout around blinkTime romdisk s₀ b' := by
  obtain ⟨harmed, htimer, hkeyboard, hrun, hsent⟩ := h
  cases hs with
  | next hn => exact ⟨harmed, htimer, hkeyboard, hrun.tail (.next hn), hsent⟩
  | raise n hn =>
    refine ⟨harmed.raise n, htimer, hkeyboard, hrun, ?_⟩
    simp only [raise_request hn]
    exact hsent
  | send scancode hread =>
    refine ⟨harmed.raise 1, htimer, hkeyboard, hrun, ?_⟩
    have hraised : (b.pair.raise 1).master.request 1 = true := rfl
    rw [hread, if_neg Bool.false_ne_true, List.append_nil] at hsent
    simp only [Board.send, hraised, if_true, hsent]
  | interrupt hi bound =>
    have h : Carries layout around blinkTime romdisk s₀ b :=
      ⟨harmed, htimer, hkeyboard, hrun, hsent⟩
    obtain ⟨vector, p', hp⟩ := interrupt_pending hi
    rcases h.interrupt hp with ⟨-, hb⟩ | ⟨hr, hb⟩
    · obtain rfl := Option.some.inj (hi.symm.trans hb)
      have hother : (served b.pair 0).master.request 1 = b.pair.master.request 1 :=
        served_request _ _ _
      refine ⟨harmed.served 0, htimer, hkeyboard, hrun, ?_⟩
      simp only [hother]
      exact hsent
    · obtain rfl := Option.some.inj (hi.symm.trans hb)
      have hdone : (served b.pair 1).master.request 1 = false := served_request _ _ _
      refine ⟨harmed.served 1, htimer, hkeyboard, hrun.tail (.interrupt b.data bound), ?_⟩
      rw [hr, if_pos rfl] at hsent
      simp only [hdone, Bool.false_eq_true, if_false, List.append_nil]
      exact hsent

lemma Carries.reaches {b₀ : Board} (h : Carries layout around blinkTime romdisk s₀ b₀)
    (run : Reaches layout around blinkTime romdisk b₀ b) :
    Carries layout around blinkTime romdisk s₀ b :=
  kept (P := Carries layout around blinkTime romdisk s₀) (fun _ _ h hs => h.step hs) h run

/-- A byte that has not been passed yet leads to an interrupt. -/
lemma Carries.pending (h : Carries layout around blinkTime romdisk s₀ b)
    (hr : b.pair.master.request 1 = true) :
    ∃ vector p', b.pair.interrupt = some (vector, p') := by
  have hwired : b.pair.wired.request 1 = true := by
    show Function.update b.pair.master.request 2 b.pair.slave.output.isSome 1 = true
    rw [Function.update_of_ne (by decide), hr]
  obtain ⟨j, ho⟩ := output_some (c := b.pair.wired) h.armed.idle hwired
    (masked_master h.armed.mask 1)
  obtain ⟨-, hcases⟩ := h.armed.output ho
  have hne : j ≠ 2 := fun he => by rw [he] at hcases; revert hcases; decide
  exact ⟨_, _, by rw [Pair.interrupt, ho]; exact if_neg hne⟩

/-- **No key is lost on the way to the driver.** Once `init_idt` has run, whatever the
controllers and the table have held before: with every byte read before the keyboard sends the
next, and whatever lines other devices raise, no interrupt leads to a gate that is not there, the
bytes sent are those passed to `process_scancode`, in order and once each, but for the last one
while it waits, and this one is passed by the next interrupt or by the one after it. What the
shell has done is one of its runs, with the keyboard between any two of its steps. -/
theorem keyboard_carried (run : Reaches layout around blinkTime romdisk
    (start layout idt p data s₀) b) :
    Shell.Reaches around blinkTime romdisk s₀ b.shell ∧ ¬ b.Faults layout ∧
      b.sent = b.passed ++ (if b.pair.master.request 1 then [b.data] else []) ∧
      (b.pair.master.request 1 = true → ∃ b₁, b.interrupt layout = some b₁ ∧
        (b₁.passed = b.sent ∨ ∃ b₂, b₁.interrupt layout = some b₂ ∧ b₂.passed = b.sent)) := by
  have h : Carries layout around blinkTime romdisk s₀ b :=
    (carries_start layout idt p _ s₀).reaches run
  refine ⟨h.run, ?_, h.sent, fun hr => ?_⟩
  · rintro ⟨vector, p', hi, hnone⟩
    obtain ⟨i, -, rfl | rfl, rfl, -⟩ := h.armed.interrupt hi
    · exact absurd (hnone.symm.trans h.timer) (by simp)
    · exact absurd (hnone.symm.trans h.keyboard) (by simp)
  · have hsent := h.sent
    rw [hr, if_pos rfl] at hsent
    obtain ⟨vector, p', hp⟩ := h.pending hr
    rcases h.interrupt hp with ⟨-, hb⟩ | ⟨-, hb⟩
    · -- the timer goes first, and then the keyboard is alone
      refine ⟨_, hb, Or.inr ?_⟩
      have hother : (served b.pair 0).master.request 1 = true :=
        (served_request _ _ _).trans hr
      have h' : Carries layout around blinkTime romdisk s₀ { b with pair := served b.pair 0 } :=
        ⟨h.armed.served 0, h.timer, h.keyboard, h.run, by simp only [hother, if_true]; exact hsent⟩
      obtain ⟨vector', p'', hp'⟩ := h'.pending hother
      rcases h'.interrupt hp' with ⟨h0, -⟩ | ⟨-, hb'⟩
      · have hdone : (served b.pair 0).master.request 0 = false := served_request _ _ _
        exact absurd (h0.symm.trans hdone) (by simp)
      · exact ⟨_, hb', hsent.symm⟩
    · exact ⟨_, hb, Or.inl hsent.symm⟩

/-- Handlers one behind the other. -/
def nearEntry : Layout where
  address
    | .timer => 0x8E20
    | .keyboard => 0x8E28
    | .syscall => 0x8E30
  distinct := fun a b => by cases a <;> cases b <;> simp

/-- An `A` is pressed at the first prompt. -/
theorem keyboard_carried_one : ∃ b : Board, b.sent = [0x1E] ∧ ¬ b.Faults nearEntry ∧
    ∃ b₁, b.interrupt nearEntry = some b₁ ∧
      (b₁.passed = [0x1E] ∨ ∃ b₂, b₁.interrupt nearEntry = some b₂ ∧ b₂.passed = [0x1E]) := by
  let b₀ := start nearEntry (fun _ => ⟨0, 0, 0, 0, 0⟩)
    ⟨⟨.mask, 8, 0, fun _ => true, fun _ => true⟩, ⟨.mode, 0, 0, fun _ => true, fun _ => true⟩⟩ 0
    (.prompt bootKeys (.boot (fun _ => 0) fun _ => 0))
  have run : Reaches nearEntry (fun _ => 0) 500000 (fun _ => 0) b₀ (b₀.send 0x1E) :=
    .single (.send 0x1E rfl)
  obtain ⟨-, hfault, -, hnext⟩ := keyboard_carried run
  exact ⟨_, rfl, hfault, hnext rfl⟩

end Mono98.Interrupts
