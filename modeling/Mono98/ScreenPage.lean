import Mono98.Listing
import Mono98.Repaint
import Mono98.TputsLoop

/-!
The screen as a picture of the page.

What the calls of the kernel print is written on the unbounded page, and the screen of 320×200
pixels shows its window. A kernel that has read nothing from the keyboard for its programs has
an empty text buffer, and no printing fills it.
-/

namespace Mono98.ScreenPage

open Mono98.Graphics Mono98.Tty Mono98.TextGrid Mono98.TtyRows Mono98.TtyRun Mono98.TextPage
open Mono98.PageWindow Mono98.Picture Mono98.Repaint Mono98.Process Mono98.Command Mono98.Listing
open Mono98.Lib.Fold

/-- The text buffer that programs read is empty. -/
structure NoInput (t : Terminal) : Prop where
  buffer : ∀ i < 256, t.textBuffer i = 0
  buflen : t.textBuflen = 0
  offset : t.textOffset = 0

/-- The screen is the picture of the window of the page. -/
structure Presents (t₀ : Terminal) (m : Machine) (p : Page) : Prop where
  good : Good t₀ m
  pictures : Pictures m.term m.video
  shows : Shows (view m.term) p
  input : NoInput m.term

variable (around : ℤ → ℕ)

/-- What a call writes on the page. -/
def write (p : Page) : Action → Page
  | .puts msg => TextPage.puts (fontAt around) p msg
  | .clear => TextPage.clear p
  | .blink _ => p
  | .echo _ msg => TextPage.puts (fontAt around) p msg

variable {around} {t₀ t t' : Terminal} {m m' : Machine} {p : Page} {k k' : Kernel}
variable {msg text : List UInt8}

lemma noInput_of_rest (h : NoInput t) (hr : rest t' = rest t) : NoInput t' := by
  simp only [rest, Prod.mk.injEq] at hr
  exact ⟨fun i hi => by rw [hr.2.2.1, h.buffer i hi], hr.2.2.2.1.trans h.buflen,
    hr.2.2.2.2.trans h.offset⟩

/-- A string on a small screen. -/
lemma shows_tputs (h : Good t₀ m) (hs : Shows (view m.term) p) (hi : NoInput m.term)
    (ht : IsText msg) (hm : tputs around m msg = some m') :
    Shows (view m'.term) (TextPage.puts (fontAt around) p msg) ∧ NoInput m'.term := by
  obtain ⟨hst, -⟩ := tputs_steps h.shaped ht hm
  have hrows : (view m.term).rows ≤ 65534 := by have := h.fits.1; simp only [view]; omega
  refine ⟨?_, noInput_of_rest hi hst.rest⟩
  rw [hst.view]
  exact shows_puts h.shaped.ok hs (fitsAll_of_rows h.shaped.ok hrows msg)

variable (around) in
/-- **One call** on a terminal that is shown. -/
theorem presents_act (h : Presents t₀ m p) {a : Action} (ht : a.Text) :
    ∃ m', act around m a = some m' ∧ Presents t₀ m' (write around p a) := by
  obtain ⟨hg, -, hs, hi⟩ := h
  obtain ⟨m', hm, hg', hp'⟩ := good_act around hg ht
  refine ⟨m', hm, ?_⟩
  cases a with
  | puts msg =>
    obtain ⟨hs', hi'⟩ := shows_tputs hg hs hi ht hm
    exact ⟨hg', hp', hs', hi'⟩
  | clear =>
    obtain ⟨xs, hl⟩ := hg.shaped.listed
    rw [act, clearTerminal_eq hl, Option.map_eq_some_iff] at hm
    obtain ⟨v, -, rfl⟩ := hm
    refine ⟨hg', hp', ?_, noInput_of_rest hi rfl⟩
    rw [(blankRows_listed hl).2]
    exact shows_clear ⟨hs.rows, hs.columns, hs.colour⟩
  | blink shown =>
    simp only [act, Keyboard.blink, Option.bind_eq_bind, Option.bind_eq_some_iff] at hm
    obtain ⟨v, -, hm⟩ := hm
    cases hm
    exact ⟨hg', hp', hs, ⟨hi.buffer, hi.buflen, hi.offset⟩⟩
  | echo shown msg =>
    obtain ⟨hs', hi'⟩ := shows_tputs (good_showing hg shown) hs
      ⟨hi.buffer, hi.buflen, hi.offset⟩ ht hm
    exact ⟨hg', hp', hs', hi'⟩

/-- A screen that is shown draws. -/
lemma Presents.sound (h : Presents t₀ m p) : Sound m := by
  obtain ⟨hg, -, -, -⟩ := h
  obtain ⟨hr, hc⟩ := hg.fits
  exact ⟨hg.shaped, fun _ => by omega, hg.settled.saved.areaOk hg.fits⟩

/-- A call on the kernel that has printed the text, and done nothing else. -/
structure Printed (around : ℤ → ℕ) (t₀ : Terminal) (p : Page) (k k' : Kernel)
    (text : List UInt8) : Prop where
  presents : Presents t₀ k'.machine (TextPage.puts (fontAt around) p text)
  rest : k' = { k with machine := k'.machine }

variable (around) in
lemma printed_kputs (h : Presents t₀ k.machine p) (ht : IsText msg) :
    ∃ k', kputs around k msg = some k' ∧ Printed around t₀ p k k' msg := by
  obtain ⟨m', hm, hp⟩ := presents_act around (a := .puts msg) h ht
  have heq : kputs around k msg = some { k with machine := m' } := by
    rw [kputs, show tputs around k.machine msg = some m' from hm]
    rfl
  exact ⟨_, heq, hp, rfl⟩

/-- Strings without a terminator that have been printed one after the other. -/
lemma printed_foldlM (h : Presents t₀ k.machine p) {msgs : List (List UInt8)}
    (h0 : ∀ msg ∈ msgs, ∀ c ∈ msg, c ≠ 0) (hk : msgs.foldlM (kputs around) k = some k') :
    Printed around t₀ p k k' msgs.flatten := by
  induction msgs generalizing k p with
  | nil => cases hk; exact ⟨h, rfl⟩
  | cons msg msgs ih =>
    simp only [List.foldlM_cons, Option.bind_eq_bind, Option.bind_eq_some_iff] at hk
    obtain ⟨k₁, h₁, hk⟩ := hk
    -- the call has come back, and so the string was within the range of the index
    have hlen : msg.length ≤ 65535 := by
      obtain ⟨m₁, hm₁, -⟩ := Option.map_eq_some_iff.mp h₁
      exact TputsLoop.length_of_tputs (h0 msg (by simp)) hm₁
    obtain ⟨k₂, h₂, hp, hr⟩ := printed_kputs around (k := k) h ⟨hlen, h0 msg (by simp)⟩
    obtain rfl := Option.some.inj (h₁.symm.trans h₂)
    obtain ⟨hp', hr'⟩ := ih hp (fun msg hmsg => h0 msg (by simp [hmsg])) hk
    refine ⟨?_, ?_⟩
    · rw [List.flatten_cons, TextPage.puts, List.foldl_append]
      exact hp'
    · rw [hr', hr]

/-- A text that has been sent is on the page. -/
theorem printed_of_sends (h : Presents t₀ k.machine p) (h0 : ∀ c ∈ text, c ≠ 0)
    (hs : Sends around k k' text) : Printed around t₀ p k k' text := by
  obtain ⟨msgs, rfl, hk⟩ := hs
  exact printed_foldlM h (fun msg hmsg c hc => h0 c (List.mem_flatten.mpr ⟨msg, hmsg, hc⟩)) hk

end Mono98.ScreenPage
