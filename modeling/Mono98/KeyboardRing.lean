import Mono98.Keyboard
import Mono98.Lib.Ring

/-!
`kgetline` against the keyboard interrupt.

`kgetline` runs in steps that touch the shared globals at most once, and between any two of
them the interrupt handler may run `process_scancode` to its end. The positions of the two
indices in the unbounded log of entries are kept beside the program: as long as no more than
255 entries are pending, the drain loop handles the log in order, whatever the interleaving.
-/

namespace Mono98.KeyboardRing

open Mono98.Graphics Mono98.Tty Mono98.Keyboard Mono98.Lib.Word Mono98.Lib.Ring

/-- Where `kgetline` stands. -/
inductive Pc
  | wait -- `while (scancode_read == scancode_write)`
  | sleep (shown : Bool) (i : ℕ) -- round `i` of a `cursor_sleep`
  | drain -- `read_scancodes: i = scancode_read`
  | test -- `i != scancode_write`
  | take -- `scancode_read = …`
  | enter -- `kbdus[…] == '\n'`
  | erase -- `kbdus[…] == '\b'`
  | rubout -- the branch of a backspace
  | mapped -- `kbdus[…] != 0 && …`
  | shifted -- `scancode_buffer[i] & (1 << 15)`
  | store (shift : Bool) -- `buffer[len] = …`
  | grow -- the echo and `len++`
  | next -- `i = …`
  | exit
  | done
  deriving DecidableEq

/-- What has happened: the entries logged, how many of them `scancode_read` has passed, those
handled, and what the current round of the drain loop has read from its slot. -/
structure History where
  logged : List UInt16
  taken : ℕ
  handled : List UInt16
  reads : List UInt16

structure State where
  pc : Pc
  keys : Keys
  i : ℕ
  line : Line
  past : History

/-- The state after `scancode_read` and `scancode_write` have been zeroed. -/
def start (keys : Keys) (buffer : ℕ → UInt8) (m : Machine) : State where
  pc := .wait
  keys := { keys with scancodeBuffer := fun _ => 0, read := 0, write := 0 }
  i := 0
  line := ⟨0, buffer, m⟩
  past := ⟨[], 0, [], []⟩

namespace State

variable (s : State)

/-- `scancode_buffer[i]`. -/
def slot : UInt16 := s.keys.scancodeBuffer s.i

/-- The slot has been read, and the program goes on at `pc`. -/
def sees (pc : Pc) : State :=
  { s with pc := pc, past := { s.past with reads := s.past.reads ++ [s.slot] } }

/-- `i = scancode_read`. -/
def drains : State := { s with pc := .test, i := s.keys.read }

/-- `scancode_read = (scancode_read + 1) % sizeof(scancode_buffer)`. -/
def takes : State :=
  { s with
    pc := .enter
    keys := { s.keys with read := bump s.keys.read }
    past := { s.past with taken := s.past.taken + 1, reads := [] } }

/-- The first look at the slot begins to handle the entry. -/
def handles : State :=
  let s' := s.sees (if key s.slot = 10 then .exit else .erase)
  { s' with past := { s'.past with handled := s'.past.handled ++ [s.slot] } }

def goes (pc : Pc) (l : Line) : State := { s with pc := pc, line := l }

variable (around : ℤ → ℕ) (echo : Bool) (capacity blinkTime : ℕ)

/-- The next step of `kgetline`. -/
def next : Option State :=
  match s.pc with
  | .wait =>
    if s.keys.read = s.keys.write then
      (blink true s.line.machine).map fun m => s.goes (.sleep true 0) { s.line with machine := m }
    else some { s with pc := .drain }
  | .sleep shown i =>
    if i < blinkTime then
      some { s with pc := if s.keys.read ≠ s.keys.write then .drain else .sleep shown (i + 1) }
    else if shown then
      (blink false s.line.machine).map fun m => s.goes (.sleep false 0) { s.line with machine := m }
    else some { s with pc := .wait }
  | .drain => some s.drains
  | .test => some { s with pc := if s.i ≠ s.keys.write then .take else .wait }
  | .take => some s.takes
  | .enter => some s.handles
  | .erase => some (s.sees (if key s.slot = 8 then .rubout else .mapped))
  | .rubout => (s.line.rubout around echo).map (s.goes .next)
  | .mapped => some (s.sees (if s.line.accepts capacity s.slot then .shifted else .next))
  | .shifted => some (s.sees (.store (s.slot &&& 0x8000 ≠ 0)))
  | .store shift =>
    let c := if shift then shiftKbdus s.slot.toUInt8 else kbdus s.slot.toUInt8
    some { s.sees .grow with line := s.line.store c }
  | .grow => (s.line.grow around echo).map (s.goes .next)
  | .next => some { s with pc := .test, i := bump s.i }
  | .exit => (s.line.finish around).map (s.goes .done)
  | .done => none

/-- The keyboard interrupts. -/
def interrupt (scancode : UInt8) : State :=
  let (keys, isLogged) := processScancode s.keys scancode
  { s with
    keys := keys
    past := { s.past with
      logged := if isLogged then s.past.logged ++ [s.keys.entry scancode] else s.past.logged } }

/-- At most 255 entries lie between `scancode_read` and `scancode_write`. -/
def Bounded : Prop := s.past.logged.length ≤ s.past.taken + 255

end State

variable (around : ℤ → ℕ) (echo : Bool) (capacity blinkTime : ℕ)

/-- The program takes a step, or the keyboard interrupts it. -/
inductive Step (s : State) : State → Prop
  | next {s'} (h : s.next around echo capacity blinkTime = some s') : Step s s'
  | interrupt (scancode : UInt8) : Step s (s.interrupt scancode)

/-- The states of the runs from `s₀` in which no more than 255 entries are ever pending. -/
inductive Reaches (s₀ : State) : State → Prop
  | refl : Reaches s₀ s₀
  | step {s s'} (run : Reaches s₀ s) (step : Step around echo capacity blinkTime s s')
      (bound : s'.Bounded) : Reaches s₀ s'

/-! ### The invariant -/

/-- The program is in a round of the drain loop, behind `scancode_read = …`. -/
def Pc.InRound : Pc → Prop
  | .enter | .erase | .rubout | .mapped | .shifted | .store _ | .grow | .next => True
  | _ => False

/-- The ring holds the end of the log, and the indices are positions of the log. -/
structure Ring (keys : Keys) (p : History) : Prop where
  holds : Holds 256 keys.scancodeBuffer p.logged
  write : keys.write = p.logged.length % 256
  read : keys.read = p.taken % 256
  taken : p.taken ≤ p.logged.length

/-- What the place in the program says about the local index and about the past. -/
structure Place (pc : Pc) (i : ℕ) (p : History) : Prop where
  handled : p.handled = p.logged.take (if pc = .enter then p.taken - 1 else p.taken)
  round : pc.InRound → 1 ≤ p.taken ∧ i = (p.taken - 1) % 256
  loop : pc = .test ∨ pc = .take → i = p.taken % 256
  pending : pc = .take → p.taken < p.logged.length
  reads : ∀ e ∈ p.reads, 1 ≤ p.taken ∧ p.logged[p.taken - 1]? = some e
  fresh : pc = .enter → p.reads = []

structure Inv (s : State) : Prop where
  ring : Ring s.keys s.past
  place : Place s.pc s.i s.past
  bound : s.Bounded

lemma bump_mod (k : ℕ) : bump (k % 256) = (k + 1) % 256 := by
  unfold bump; omega

variable {s s' s₀ : State} {pc q : Pc} {i : ℕ} {p : History} {keys : Keys}
variable {around echo capacity blinkTime}

lemma inv_start (keys : Keys) (buffer : ℕ → UInt8) (m : Machine) : Inv (start keys buffer m) where
  ring := ⟨holds_nil _ _, rfl, rfl, Nat.le_refl _⟩
  place := ⟨rfl, False.elim, by simp [start], by simp [start], by simp [start], fun _ => rfl⟩
  bound := Nat.zero_le _

/-- `scancode_read` passes an entry. -/
lemma Ring.takes {p' : History} (h : Ring keys p) (hlt : p.taken < p.logged.length)
    (hl : p'.logged = p.logged) (ht : p'.taken = p.taken + 1) :
    Ring { keys with read := bump keys.read } p' where
  holds := hl ▸ h.holds
  write := hl ▸ h.write
  read := by rw [ht, h.read, bump_mod]
  taken := by rw [hl, ht]; exact hlt

/-- Between two places where the index and the past stay the same. -/
lemma Place.move (h : Place pc i p) (he : pc ≠ .enter) (he' : q ≠ .enter)
    (hr : q.InRound → pc.InRound) (hl : ¬ (q = .test ∨ q = .take)) : Place q i p where
  handled := by rw [h.handled, if_neg he, if_neg he']
  round := fun h' => h.round (hr h')
  loop := fun h' => absurd h' hl
  pending := fun h' => absurd (Or.inr h') hl
  reads := h.reads
  fresh := fun h' => absurd h' he'

/-! ### The steps of the program -/

/-- In a round the slot holds the entry that was taken last. -/
lemma Inv.slot (h : Inv s) (hr : s.pc.InRound) :
    s.past.logged[s.past.taken - 1]? = some s.slot := by
  obtain ⟨h1, hi⟩ := h.place.round hr
  have hb : s.past.logged.length ≤ s.past.taken + 255 := h.bound
  have ht := h.ring.taken
  rw [State.slot, hi]
  exact h.ring.holds.read (by omega) (by omega)

/-- `scancode_read` meets `scancode_write` exactly when every entry has been taken. -/
lemma Ring.caught_up (h : Ring keys p) (hb : p.logged.length ≤ p.taken + 255) :
    keys.read = keys.write ↔ p.taken = p.logged.length := by
  rw [h.read, h.write]
  exact ⟨eq_of_mod_eq h.taken (by omega), fun he => by rw [he]⟩

/-- The local index does so too. -/
lemma Inv.caught_up (h : Inv s) (hl : s.pc = .test ∨ s.pc = .take) :
    s.i = s.keys.write ↔ s.past.taken = s.past.logged.length := by
  rw [h.place.loop hl, ← h.ring.read]
  exact h.ring.caught_up h.bound

lemma Inv.drains (h : Inv s) (hpc : s.pc = .drain) : Inv s.drains where
  ring := h.ring
  place :=
    { handled := by rw [State.drains, h.place.handled, hpc]; rfl
      round := False.elim
      loop := fun _ => h.ring.read
      pending := fun h' => by cases h'
      reads := h.place.reads
      fresh := fun h' => by cases h' }
  bound := h.bound

lemma Inv.test (h : Inv s) (hpc : s.pc = .test) (hne : s.i ≠ s.keys.write) :
    Inv { s with pc := .take } where
  ring := h.ring
  place :=
    { handled := by rw [h.place.handled, hpc]; rfl
      round := False.elim
      loop := fun _ => h.place.loop (Or.inl hpc)
      pending := fun _ => by
        have ht := h.ring.taken
        have hc := (h.caught_up (Or.inl hpc)).not.mp hne
        exact Nat.lt_of_le_of_ne ht hc
      reads := h.place.reads
      fresh := fun h' => by cases h' }
  bound := h.bound

lemma Inv.takes (h : Inv s) (hpc : s.pc = .take) : Inv s.takes where
  ring := h.ring.takes (h.place.pending hpc) rfl rfl
  place :=
    { handled := by rw [State.takes, h.place.handled, hpc]; rfl
      round := fun _ => ⟨Nat.le_add_left 1 _, h.place.loop (Or.inr hpc)⟩
      loop := fun h' => by rcases h' with h' | h' <;> cases h'
      pending := fun h' => by cases h'
      reads := fun e he => by cases he
      fresh := fun _ => rfl }
  bound := by
    have hb : s.past.logged.length ≤ s.past.taken + 255 := h.bound
    show s.past.logged.length ≤ s.past.taken + 1 + 255
    omega

/-- A look at the slot behind the first one. -/
lemma Inv.sees (h : Inv s) (hr : s.pc.InRound) (he : s.pc ≠ .enter) (he' : q ≠ .enter)
    (hl : ¬ (q = .test ∨ q = .take)) : Inv (s.sees q) where
  ring := ⟨h.ring.holds, h.ring.write, h.ring.read, h.ring.taken⟩
  place :=
    { handled := by
        rw [State.sees, if_neg he', h.place.handled, if_neg he]
      round := fun _ => h.place.round hr
      loop := fun h' => absurd h' hl
      pending := fun h' => absurd (Or.inr h') hl
      reads := fun e hm => by
        rcases List.mem_append.mp hm with hm | hm
        · exact h.place.reads e hm
        · rw [List.mem_singleton.mp hm]
          exact ⟨(h.place.round hr).1, h.slot hr⟩
      fresh := fun h' => absurd h' he' }
  bound := h.bound

/-- The first look at the slot. -/
lemma Inv.handles (h : Inv s) (hpc : s.pc = .enter) : Inv s.handles := by
  have hslot := h.slot (by rw [hpc]; trivial)
  obtain ⟨h1, hi⟩ := h.place.round (by rw [hpc]; trivial)
  have hpc' : s.handles.pc ≠ .enter ∧ ¬ (s.handles.pc = .test ∨ s.handles.pc = .take) := by
    simp only [State.handles, State.sees]
    split <;> simp
  refine ⟨⟨h.ring.holds, h.ring.write, h.ring.read, h.ring.taken⟩,
    ⟨?_, fun _ => ⟨h1, hi⟩, fun h' => absurd h' hpc'.2, fun h' => absurd (Or.inr h') hpc'.2,
      fun e he => ?_, fun h' => absurd h' hpc'.1⟩, h.bound⟩
  · rw [if_neg hpc'.1]
    show s.past.handled ++ [s.slot] = s.past.logged.take s.past.taken
    obtain ⟨k, hk⟩ : ∃ k, s.past.taken = k + 1 := ⟨s.past.taken - 1, by omega⟩
    rw [h.place.handled, hpc, if_pos rfl, hk, List.take_add_one]
    rw [hk] at hslot
    simp only [Nat.add_sub_cancel] at hslot ⊢
    rw [hslot]
    rfl
  · have he : e ∈ s.past.reads ++ [s.slot] := he
    rw [h.place.fresh hpc, List.nil_append, List.mem_singleton] at he
    rw [he]
    exact ⟨h1, hslot⟩

lemma Inv.goes (h : Inv s) (he : s.pc ≠ .enter) (l : Line) (he' : q ≠ .enter)
    (hr : q.InRound → s.pc.InRound) (hl : ¬ (q = .test ∨ q = .take)) : Inv (s.goes q l) :=
  ⟨h.ring, h.place.move he he' hr hl, h.bound⟩

lemma Inv.nextRound (h : Inv s) (hpc : s.pc = .next) :
    Inv { s with pc := .test, i := bump s.i } := by
  obtain ⟨h1, hi⟩ := h.place.round (by rw [hpc]; trivial)
  refine ⟨h.ring, ⟨?_, False.elim, fun _ => ?_, fun h' => (by cases h'), h.place.reads,
    fun h' => (by cases h')⟩, h.bound⟩
  · rw [h.place.handled, hpc]; rfl
  · show bump s.i = s.past.taken % 256
    rw [hi, bump_mod, Nat.sub_add_cancel h1]

/-- A step of the program keeps the invariant. -/
lemma Inv.next (h : Inv s) (hs : s.next around echo capacity blinkTime = some s') : Inv s' := by
  unfold State.next at hs
  split at hs
  case h_1 hpc =>
    split at hs
    · obtain ⟨m, -, rfl⟩ := Option.map_eq_some_iff.mp hs
      exact h.goes (by simp [hpc]) _ (by simp) False.elim (by simp)
    · cases hs
      exact h.goes (q := .drain) (by simp [hpc]) s.line (by simp) False.elim (by simp)
  case h_2 shown i hpc =>
    split at hs
    · cases hs
      refine h.goes (by simp [hpc]) s.line ?_ ?_ ?_ <;> split <;> simp [Pc.InRound]
    · split at hs
      · obtain ⟨m, -, rfl⟩ := Option.map_eq_some_iff.mp hs
        exact h.goes (by simp [hpc]) _ (by simp) False.elim (by simp)
      · cases hs
        exact h.goes (q := .wait) (by simp [hpc]) s.line (by simp) False.elim (by simp)
  case h_3 hpc => cases hs; exact h.drains hpc
  case h_4 hpc =>
    cases hs
    by_cases hw : s.i = s.keys.write
    · simp only [hw, ne_eq, not_true, if_false]
      rw [← hw]
      exact h.goes (q := .wait) (by simp [hpc]) s.line (by simp) False.elim (by simp)
    · simp only [ne_eq, hw, not_false_eq_true, if_true]
      exact h.test hpc hw
  case h_5 hpc => cases hs; exact h.takes hpc
  case h_6 hpc => cases hs; exact h.handles hpc
  case h_7 hpc =>
    cases hs
    refine h.sees (by rw [hpc]; trivial) (by simp [hpc]) ?_ ?_ <;> split <;> simp
  case h_8 hpc =>
    obtain ⟨l, -, rfl⟩ := Option.map_eq_some_iff.mp hs
    exact h.goes (by simp [hpc]) l (by simp) (fun _ => by rw [hpc]; trivial) (by simp)
  case h_9 hpc =>
    cases hs
    refine h.sees (by rw [hpc]; trivial) (by simp [hpc]) ?_ ?_ <;> split <;> simp
  case h_10 hpc => cases hs; exact h.sees (by rw [hpc]; trivial) (by simp [hpc]) (by simp) (by simp)
  case h_11 shift hpc =>
    cases hs
    have h' := h.sees (q := .grow) (by rw [hpc]; trivial) (by simp [hpc]) (by simp) (by simp)
    exact ⟨h'.ring, h'.place, h'.bound⟩
  case h_12 hpc =>
    obtain ⟨l, -, rfl⟩ := Option.map_eq_some_iff.mp hs
    exact h.goes (by simp [hpc]) l (by simp) (fun _ => by rw [hpc]; trivial) (by simp)
  case h_13 hpc => cases hs; exact h.nextRound hpc
  case h_14 hpc =>
    obtain ⟨l, -, rfl⟩ := Option.map_eq_some_iff.mp hs
    exact h.goes (by simp [hpc]) l (by simp) False.elim (by simp)
  case h_15 => cases hs

/-! ### The interrupt -/

/-- What `process_scancode` does to the ring. -/
lemma processScancode_cases (k : Keys) (scancode : UInt8) :
    (∃ shift ctrl, processScancode k scancode = ({ k with shift := shift, ctrl := ctrl }, false)) ∨
    processScancode k scancode =
      ({ k with
        bufempty := 0
        scancodeBuffer := Function.update k.scancodeBuffer k.write (k.entry scancode)
        write := bump k.write }, true) := by
  unfold processScancode
  split_ifs
  · exact Or.inl ⟨1, k.ctrl, rfl⟩
  · exact Or.inl ⟨0, k.ctrl, rfl⟩
  · exact Or.inl ⟨k.shift, 1, rfl⟩
  · exact Or.inl ⟨k.shift, 0, rfl⟩
  · exact Or.inr rfl

/-- The log grows behind everything that has been read of it. -/
lemma Place.log (h : Place pc i p) (ht : p.taken ≤ p.logged.length) (e : UInt16) :
    Place pc i { p with logged := p.logged ++ [e] } where
  handled := by
    show p.handled = (p.logged ++ [e]).take (if pc = .enter then p.taken - 1 else p.taken)
    rw [h.handled, List.take_append_of_le_length (by split <;> omega)]
  round := h.round
  loop := h.loop
  pending := fun h' => by
    have := h.pending h'
    simp only [List.length_append]
    omega
  reads := fun e' he => by
    obtain ⟨h1, hr⟩ := h.reads e' he
    have hlt : p.taken - 1 < p.logged.length := by omega
    exact ⟨h1, (List.getElem?_append_left hlt).trans hr⟩
  fresh := h.fresh

/-- The handler logs an entry behind the others, or none. -/
lemma Ring.interrupt (h : Ring keys p) (scancode : UInt8) :
    Ring (processScancode keys scancode).1 { p with
      logged := if (processScancode keys scancode).2 then p.logged ++ [keys.entry scancode]
        else p.logged } := by
  obtain ⟨hholds, hwrite, hread, htaken⟩ := h
  rcases processScancode_cases keys scancode with ⟨shift, ctrl, hp⟩ | hp
  · simp only [hp]
    exact ⟨hholds, hwrite, hread, htaken⟩
  · simp only [hp, if_true]
    refine ⟨?_, ?_, hread, ?_⟩
    · simp only [hwrite]
      exact hholds.push _
    · simp only [hwrite, bump_mod, List.length_append, List.length_singleton]
    · simp only [List.length_append]
      omega

lemma Inv.interrupt (h : Inv s) {scancode : UInt8} (hb : (s.interrupt scancode).Bounded) :
    Inv (s.interrupt scancode) where
  ring := h.ring.interrupt scancode
  place := by
    simp only [State.interrupt]
    split
    · exact h.place.log h.ring.taken _
    · exact h.place
  bound := hb

/-! ### Runs -/

lemma inv_reaches (h : Inv s₀) (run : Reaches around echo capacity blinkTime s₀ s) : Inv s := by
  induction run with
  | refl => exact h
  | step _ hs hb ih =>
    cases hs with
    | next hs => exact ih.next hs
    | interrupt scancode => exact ih.interrupt hb

/-- The entries handled are the first ones logged. -/
lemma Inv.handled_le (h : Inv s) : s.past.handled <+: s.past.logged := by
  rw [h.place.handled]
  exact List.take_prefix _ _

variable (around echo capacity blinkTime)

/-- **The scancode ring is a queue.** In every state of every run the entries handled are the
first entries logged, in order, everything a round has read of its slot is the entry it
handles, and when the drain loop ends by its condition every entry has been handled. -/
theorem ring_fifo (keys : Keys) (buffer : ℕ → UInt8) (m : Machine)
    (run : Reaches around echo capacity blinkTime (start keys buffer m) s) :
    s.past.handled <+: s.past.logged ∧
      (∀ e ∈ s.past.reads, s.past.handled.getLast? = some e) ∧
      (s.pc = .test → s.i = s.keys.write → s.past.handled = s.past.logged) := by
  have h := inv_reaches (inv_start keys buffer m) run
  refine ⟨?_, fun e he => ?_, fun hpc hw => ?_⟩
  · rw [h.place.handled]
    exact List.take_prefix _ _
  · obtain ⟨h1, hr⟩ := h.place.reads e he
    have hpc : s.pc ≠ .enter := fun hpc => by rw [h.place.fresh hpc] at he; cases he
    obtain ⟨k, hk⟩ : ∃ k, s.past.taken = k + 1 := ⟨s.past.taken - 1, by omega⟩
    rw [hk, Nat.add_sub_cancel] at hr
    rw [h.place.handled, if_neg hpc, hk, List.take_add_one, hr]
    simp
  · rw [h.place.handled, hpc, if_neg (by simp), (h.caught_up (Or.inl hpc)).mp hw,
      List.take_length]

/-- An `A` is typed while the loop waits, a shift and an `S` while it looks at the `A`. -/
theorem ring_fifo_two : ∃ s : State, s.past.logged = [30, 0x801F] ∧ s.past.handled = [30] ∧
    s.past.handled <+: s.past.logged ∧ ∀ e ∈ s.past.reads, s.past.handled.getLast? = some e := by
  obtain ⟨h₁, h₂, -⟩ := ring_fifo (fun _ => 0) true 10 500000
    ⟨fun _ => 7, 1, 3, 4, 0, 0⟩ (fun _ => 0) (initTerminal 2 1 (fun _ => 0) 7 (.boot fun _ => 0))
    (((((((((Reaches.refl.step (.interrupt 30) (Nat.le_add_left _ _)).step (.next rfl)
      (Nat.le_add_left _ _)).step (.next rfl) (Nat.le_add_left _ _)).step (.next rfl)
      (Nat.le_add_left _ _)).step (.next rfl) (Nat.le_add_left _ _)).step (.next rfl)
      (Nat.le_add_left _ _)).step (.interrupt 0x2A) (Nat.le_add_left _ _)).step (.interrupt 31)
      (Nat.le_add_left 2 _)).step (.next rfl) (Nat.le_add_left 2 _))
  exact ⟨_, rfl, rfl, h₁, h₂⟩

end Mono98.KeyboardRing
