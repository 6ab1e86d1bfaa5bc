import Mono98.KeyboardRing

/-!
The steps of `kgetline` are the handling of whole entries.

The drain loop looks at its slot up to four times before it is done with an entry. No
interrupt changes what it sees there, and so every run of the small steps is a run of the line
editor on the entries handled and the blinking in between, cut off somewhere in the last entry.
-/

namespace Mono98.KeyboardLine

open Mono98.Tty Mono98.Keyboard Mono98.KeyboardRing

variable (around : ℤ → ℕ) (echo : Bool) (capacity blinkTime : ℕ)

/-- The entries among the events. -/
def entries (events : List Event) : List UInt16 :=
  events.filterMap fun
    | .entry e => some e
    | .blink _ => none

/-- How far the handling of the entry `e` has come, from the line `l` on. -/
def Midway (pc : Pc) (l : Line) (e : UInt16) (l' : Line) : Prop :=
  match pc with
  | .erase => l' = l ∧ key e ≠ 10
  | .rubout => l' = l ∧ key e ≠ 10 ∧ key e = 8
  | .mapped => l' = l ∧ key e ≠ 10 ∧ key e ≠ 8
  | .shifted => l' = l ∧ key e ≠ 10 ∧ key e ≠ 8 ∧ l.accepts capacity e
  | .store shift => l' = l ∧ key e ≠ 10 ∧ key e ≠ 8 ∧ l.accepts capacity e ∧
      shift = decide (e &&& 0x8000 ≠ 0)
  | .grow => l' = l.store (charOf e) ∧ key e ≠ 10 ∧ key e ≠ 8 ∧ l.accepts capacity e
  | .next => l.handle around echo capacity e = some l' ∧ key e ≠ 10
  | .exit => l' = l ∧ key e = 10
  | .done => l.finish around = some l' ∧ key e = 10
  | _ => False

/-- The program is between two entries. -/
def Pc.Between : Pc → Prop
  | .wait | .sleep _ _ | .drain | .test | .take | .enter => True
  | _ => False

/-- The line is the one that the events have made of `l₀`, or is on its way to it. -/
structure Follows (l₀ : Line) (s : State) (events : List Event) (l : Line) : Prop where
  run : l₀.run around echo capacity events = some l
  typed : ∀ e ∈ entries events, key e ≠ 10
  stands : Pc.Between s.pc ∧ s.line = l ∧ s.past.handled = entries events ∨
    ∃ e, Midway around echo capacity s.pc l e s.line ∧ s.past.handled = entries events ++ [e]

variable {around echo capacity blinkTime} {s s' s₀ : State} {l l₀ l' : Line} {events : List Event}

lemma entries_append (es es' : List Event) : entries (es ++ es') = entries es ++ entries es' :=
  List.filterMap_append

lemma run_snoc (h : l₀.run around echo capacity events = some l) {ev : Event}
    (hl : l.apply around echo capacity ev = some l') :
    l₀.run around echo capacity (events ++ [ev]) = some l' := by
  rw [Line.run, List.foldlM_append]
  show (l₀.run around echo capacity events).bind _ = _
  rw [h, Option.bind_some, List.foldlM_cons, hl]
  rfl

/-- In a round the entry handled last is in the slot. -/
lemma last_handled (h : Inv s) (hr : s.pc.InRound) (he : s.pc ≠ .enter) {es : List UInt16}
    {e : UInt16} (hh : s.past.handled = es ++ [e]) : s.slot = e := by
  obtain ⟨h1, -⟩ := h.place.round hr
  have hslot := h.slot hr
  have hp := h.place.handled
  obtain ⟨k, hk⟩ : ∃ k, s.past.taken = k + 1 := ⟨s.past.taken - 1, by omega⟩
  rw [if_neg he, hk, List.take_add_one, hh] at hp
  rw [hk, Nat.add_sub_cancel] at hslot
  rw [hslot] at hp
  exact (List.append_inj' hp rfl).2 |> fun h => by simpa using h.symm

/-! ### One step -/

/-- A step between two entries. -/
lemma next_between (hrun : l₀.run around echo capacity events = some s.line)
    (ht : ∀ e ∈ entries events, key e ≠ 10) (hb : Pc.Between s.pc)
    (hh : s.past.handled = entries events)
    (hs : s.next around echo capacity blinkTime = some s') :
    ∃ events' l', Follows around echo capacity l₀ s' events' l' := by
  -- a refresh with the cursor shown or hidden
  have blinks : ∀ {shown m i}, blink shown s.line.machine = some m →
      ∃ events' l', Follows around echo capacity l₀
        (s.goes (.sleep shown i) { s.line with machine := m }) events' l' := by
    intro shown m i hm
    have hev : entries (events ++ [.blink shown]) = entries events := by
      rw [entries_append]
      exact List.append_nil _
    refine ⟨events ++ [.blink shown], _, run_snoc hrun (by rw [Line.apply, hm]; rfl), ?_,
      Or.inl ⟨trivial, rfl, ?_⟩⟩
    · rw [hev]
      exact ht
    · rw [hev]
      exact hh
  unfold State.next at hs
  cases hpc : s.pc with
  | wait =>
    simp only [hpc] at hs
    split at hs
    · obtain ⟨m, hm, rfl⟩ := Option.map_eq_some_iff.mp hs
      exact blinks hm
    · cases hs
      exact ⟨events, _, hrun, ht, Or.inl ⟨trivial, rfl, hh⟩⟩
  | sleep shown i =>
    simp only [hpc] at hs
    split at hs
    · cases hs
      refine ⟨events, _, hrun, ht, Or.inl ⟨?_, rfl, hh⟩⟩
      split <;> trivial
    · split at hs
      · obtain ⟨m, hm, rfl⟩ := Option.map_eq_some_iff.mp hs
        exact blinks hm
      · cases hs
        exact ⟨events, _, hrun, ht, Or.inl ⟨trivial, rfl, hh⟩⟩
  | drain =>
    simp only [hpc] at hs
    cases hs
    exact ⟨events, _, hrun, ht, Or.inl ⟨trivial, rfl, hh⟩⟩
  | test =>
    simp only [hpc] at hs
    cases hs
    refine ⟨events, _, hrun, ht, Or.inl ⟨?_, rfl, hh⟩⟩
    split <;> trivial
  | take =>
    simp only [hpc] at hs
    cases hs
    exact ⟨events, _, hrun, ht, Or.inl ⟨trivial, rfl, hh⟩⟩
  | enter =>
    simp only [hpc] at hs
    cases hs
    refine ⟨events, _, hrun, ht, Or.inr ⟨s.slot, ?_, ?_⟩⟩
    · by_cases hk : key s.slot = 10
      · simp [State.handles, State.sees, hk, Midway]
      · simp [State.handles, State.sees, hk, Midway]
    · rw [← hh]
      rfl
  | _ => rw [hpc] at hb; exact hb.elim

/-- A step within the handling of an entry. -/
lemma next_midway (hi : Inv s) (hrun : l₀.run around echo capacity events = some l)
    (ht : ∀ e ∈ entries events, key e ≠ 10) {e : UInt16}
    (hm : Midway around echo capacity s.pc l e s.line)
    (hh : s.past.handled = entries events ++ [e])
    (hs : s.next around echo capacity blinkTime = some s') :
    ∃ events' l', Follows around echo capacity l₀ s' events' l' := by
  have hslot : s.pc.InRound → s.pc ≠ .enter → s.slot = e := fun hr he => last_handled hi hr he hh
  -- the entry is not done yet
  have stays : ∀ {q l'}, Midway around echo capacity q l e l' → s'.pc = q → s'.line = l' →
      s'.past.handled = s.past.handled →
      ∃ events' l', Follows around echo capacity l₀ s' events' l' := by
    rintro q l' hq rfl rfl hp
    exact ⟨events, l, hrun, ht, Or.inr ⟨e, hq, hp.trans hh⟩⟩
  unfold State.next at hs
  cases hpc : s.pc with
  | erase =>
    have he := hslot (by rw [hpc]; trivial) (by simp [hpc])
    simp only [hpc, he] at hs hm
    obtain ⟨hl, h10⟩ := hm
    cases hs
    by_cases h8 : key e = 8
    · exact stays (q := .rubout) ⟨hl, h10, h8⟩ (if_pos h8) rfl rfl
    · exact stays (q := .mapped) ⟨hl, h10, h8⟩ (if_neg h8) rfl rfl
  | rubout =>
    simp only [hpc] at hs hm
    obtain ⟨hl, h10, h8⟩ := hm
    obtain ⟨l', hl', rfl⟩ := Option.map_eq_some_iff.mp hs
    refine stays (q := .next) ⟨?_, h10⟩ rfl rfl rfl
    rw [Line.handle, if_pos h8, ← hl]
    exact hl'
  | mapped =>
    have he := hslot (by rw [hpc]; trivial) (by simp [hpc])
    simp only [hpc, he] at hs hm
    obtain ⟨hl, h10, h8⟩ := hm
    cases hs
    by_cases ha : s.line.accepts capacity e
    · exact stays (q := .shifted) ⟨hl, h10, h8, hl ▸ ha⟩ (if_pos ha) rfl rfl
    · refine stays (q := .next) ⟨?_, h10⟩ (if_neg ha) rfl rfl
      rw [Line.handle, if_neg h8, ← hl, if_neg ha]
      rfl
  | shifted =>
    have he := hslot (by rw [hpc]; trivial) (by simp [hpc])
    simp only [hpc, he] at hs hm
    obtain ⟨hl, h10, h8, ha⟩ := hm
    cases hs
    exact stays (q := .store _) ⟨hl, h10, h8, ha, rfl⟩ rfl rfl rfl
  | store shift =>
    have he := hslot (by rw [hpc]; trivial) (by simp [hpc])
    simp only [hpc, he] at hs hm
    obtain ⟨hl, h10, h8, ha, rfl⟩ := hm
    cases hs
    refine stays (q := .grow) ⟨?_, h10, h8, ha⟩ rfl rfl rfl
    rw [← hl]
    simp only [charOf, decide_eq_true_eq]
  | grow =>
    simp only [hpc] at hs hm
    obtain ⟨hl, h10, h8, ha⟩ := hm
    obtain ⟨l', hl', rfl⟩ := Option.map_eq_some_iff.mp hs
    refine stays (q := .next) ⟨?_, h10⟩ rfl rfl rfl
    rw [Line.handle, if_neg h8, if_pos ha, ← hl]
    exact hl'
  | next =>
    simp only [hpc] at hs hm
    obtain ⟨hl, h10⟩ := hm
    cases hs
    have hev : entries (events ++ [.entry e]) = entries events ++ [e] := entries_append _ _
    have happly : l.apply around echo capacity (.entry e) = some s.line := hl
    refine ⟨events ++ [.entry e], s.line, run_snoc hrun happly, fun e' he' => ?_,
      Or.inl ⟨trivial, rfl, hh.trans hev.symm⟩⟩
    rw [hev] at he'
    rcases List.mem_append.mp he' with he' | he'
    · exact ht e' he'
    · rwa [List.mem_singleton.mp he']
  | exit =>
    simp only [hpc] at hs hm
    obtain ⟨hl, h10⟩ := hm
    obtain ⟨l', hl', rfl⟩ := Option.map_eq_some_iff.mp hs
    exact stays (q := .done) ⟨by rw [← hl]; exact hl', h10⟩ rfl rfl rfl
  | done => simp only [hpc] at hs; cases hs
  | _ => rw [hpc] at hm; exact hm.elim

/-! ### Runs -/

/-- **A run of `kgetline`** handles each of its entries as a whole: its line is the one that
the entries handled and the blinking make of the empty line, up to what is still to be done for
the last entry. -/
theorem run_follows (keys : Keys) (buffer : ℕ → UInt8) (m : Machine)
    (run : Reaches around echo capacity blinkTime (start keys buffer m) s) :
    ∃ events l, Follows around echo capacity ⟨0, buffer, m⟩ s events l := by
  induction run with
  | refl => exact ⟨[], ⟨0, buffer, m⟩, rfl, by simp [entries], Or.inl ⟨trivial, rfl, rfl⟩⟩
  | step hrun hstep _ ih =>
    obtain ⟨events, l, hev, ht, hst⟩ := ih
    cases hstep with
    | next hs =>
      rcases hst with ⟨hb, rfl, hh⟩ | ⟨e, hm, hh⟩
      · exact next_between hev ht hb hh hs
      · exact next_midway (inv_reaches (inv_start keys buffer m) hrun) hev ht hm hh hs
    | interrupt scancode => exact ⟨events, l, hev, ht, hst⟩

/-- When `kgetline` returns, the entries handled are those before the first Enter and the Enter
itself, and the line is what the editor has made of them. -/
theorem done_line (keys : Keys) (buffer : ℕ → UInt8) (m : Machine)
    (run : Reaches around echo capacity blinkTime (start keys buffer m) s) (hd : s.pc = .done) :
    ∃ events e l, s.past.handled = entries events ++ [e] ∧
      (∀ e ∈ entries events, key e ≠ 10) ∧ key e = 10 ∧
      Line.run around echo capacity ⟨0, buffer, m⟩ events = some l ∧
      l.finish around = some s.line := by
  obtain ⟨events, l, hrun, ht, hst⟩ := run_follows keys buffer m run
  rw [hd] at hst
  rcases hst with ⟨hb, -⟩ | ⟨e, ⟨hfin, h10⟩, hh⟩
  · exact hb.elim
  · exact ⟨events, e, l, hh, ht, h10, hrun, hfin⟩

end Mono98.KeyboardLine
