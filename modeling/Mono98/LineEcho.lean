import Mono98.Keyboard
import Mono98.PageOrder
import Mono98.PageWindow

/-!
The echo of a pending line.

`kgetline` keeps a buffer, the terminal keeps a screen, and each has its own rule for a
backspace. As long as the line fits the window but for one row, the two stay in lock step: the
line is on the page where it was begun, in reading order, and nothing else has changed.
-/

namespace Mono98.LineEcho

open Mono98.Graphics Mono98.Tty Mono98.TextGrid Mono98.TtyRows Mono98.TtyRun Mono98.TextPage
open Mono98.PageWindow Mono98.PageOrder Mono98.Keyboard Mono98.Lib.Word Mono98.Lib.Fold

/-- The pending line is on the page, from the position of the cursor of `p₀` on. -/
structure Echoes (p₀ p : Page) (l : Line) : Prop where
  pos : pos p = PageOrder.pos p₀ + l.len
  typed : ∀ j < l.len, word p (PageOrder.pos p₀ + j) = glyph (l.buffer j) ||| p.colour
  before : ∀ q < PageOrder.pos p₀, word p q = word p₀ q
  top : p.top * p.columns ≤ PageOrder.pos p₀
  rows : p.rows = p₀.rows
  columns : p.columns = p₀.columns
  colour : p.colour = p₀.colour
  written : ∃ cs, p = TextPage.puts glyph p₀ cs

variable {p₀ p p' : Page} {l : Line} {capacity : ℕ} {around : ℤ → ℕ} {m m' : Machine}

/-- Typing a character. -/
lemma Echoes.store (h : Echoes p₀ p l) {c : UInt8} (hp : Prints p p' (glyph c ||| p.colour))
    (hcap : l.len ≤ (p.rows - 1) * p.columns) (hlen : l.len < 65535)
    (hput : p' = TextPage.put glyph p c) (m : Machine) :
    Echoes p₀ p' { l.store c with len := inc 16 l.len, machine := m } := by
  have hinc : inc 16 l.len = l.len + 1 := inc_of_lt (by omega)
  obtain ⟨cs, hcs⟩ := h.written
  refine ⟨?_, fun j hj => ?_, fun q hq => ?_, ?_, hp.rows.trans h.rows,
    hp.columns.trans h.columns, hp.colour.trans h.colour, cs ++ [c], ?_⟩
  · show PageOrder.pos p' = _ + inc 16 l.len
    rw [hp.pos, h.pos, hinc, Nat.add_assoc]
  · have hj : j < inc 16 l.len := hj
    show word p' (_ + j) = glyph (Function.update l.buffer l.len c j) ||| p'.colour
    rw [hp.word, hp.colour, h.pos, Function.update_apply, Function.update_apply]
    by_cases he : j = l.len
    · simp [he]
    · rw [if_neg (by omega), if_neg he]
      exact h.typed j (by omega)
  · rw [hp.word, Function.update_of_ne (by rw [h.pos]; omega)]
    exact h.before q hq
  · rw [hp.columns]
    rcases hp.top with ht | ht
    · rw [ht]
      exact h.top
    · rw [h.pos] at ht
      omega
  · rw [hput, hcs, TextPage.puts, TextPage.puts, List.foldl_append]
    rfl

/-- Rubbing out the last character. -/
lemma Echoes.rubout (h : Echoes p₀ p l) (hp : Rubs p p') (h0 : l.len ≠ 0)
    (hput : p' = TextPage.put glyph p 8) (m : Machine) :
    Echoes p₀ p' { l with len := dec 16 l.len, machine := m } := by
  have hdec : dec 16 l.len = l.len - 1 := dec_of_pos (by omega)
  obtain ⟨cs, hcs⟩ := h.written
  refine ⟨?_, fun j hj => ?_, fun q hq => ?_, ?_, hp.rows.trans h.rows,
    hp.columns.trans h.columns, hp.colour.trans h.colour, cs ++ [8], ?_⟩
  · show PageOrder.pos p' = _ + dec 16 l.len
    rw [hp.pos, h.pos, hdec]
    omega
  · have hj : j < dec 16 l.len := hj
    rw [hp.word, hp.colour, Function.update_of_ne (by rw [h.pos]; omega)]
    exact h.typed j (by omega)
  · rw [hp.word, Function.update_of_ne (by rw [h.pos]; omega)]
    exact h.before q hq
  · rw [hp.top, hp.columns]
    exact h.top
  · rw [hput, hcs, TextPage.puts, TextPage.puts, List.foldl_append]
    rfl

/-- What a step of the line keeps: the terminal is sound and shows a page with the line. -/
structure Shown (p₀ : Page) (l : Line) (p : Page) : Prop where
  shaped : Shaped l.machine.term
  shows_ : Shows (view l.machine.term) p
  echoes : Echoes p₀ p l

/-- The echo of one byte. -/
lemma echoed_shows (hsh : Shaped m.term) (hs : Shows (view m.term) p) {c : UInt8} (h0 : c ≠ 0)
    (h10 : c ≠ 10) (h7 : c.toNat < 128) (hm : echoed around true c m = some m') :
    Shaped m'.term ∧ Shows (view m'.term) (TextPage.put glyph p c) := by
  have ht : IsPlain [c] := ⟨by simp, by simp [h0, h7]⟩
  obtain ⟨hst, hsh'⟩ := tputs_steps hsh ht.isText hm
  rw [puts_fontAt around _ ht] at hst
  refine ⟨hsh', ?_⟩
  rw [hst.view]
  exact shows_put hsh.ok hs fun he => absurd he h10

lemma not_isColour {c : UInt8} (h : c.toNat < 128) : ¬ IsColour c :=
  byte_forall (fun c => c.toNat < 128 → ¬ IsColour c) (by decide +kernel) c h

/-- **One entry** keeps the line and the screen in lock step. -/
lemma Shown.handle (h : Shown p₀ l p) (hcap : l.len + 1 ≤ capacity ∧ capacity ≤ 65535)
    (hrows : capacity ≤ (p₀.rows - 1) * p₀.columns) {e : UInt16} (he : key e ≠ 10) {l' : Line}
    (hl : l.handle around true capacity e = some l') : ∃ p', Shown p₀ l' p' := by
  obtain ⟨hsh, hs, hec⟩ := h
  have hr : 1 ≤ p.rows := by have := hsh.ok.rows; have := hs.rows; omega
  have hc : 1 ≤ p.columns := by have := hsh.ok.columns; have := hs.columns; omega
  have hx : p.x ≤ p.columns := by rw [← hs.x, ← hs.columns]; exact hsh.ok.x
  unfold Line.handle at hl
  split_ifs at hl with h8 hacc
  · unfold Line.rubout at hl
    split_ifs at hl with h0
    · obtain ⟨m', hm, rfl⟩ := Option.map_eq_some_iff.mp hl
      obtain ⟨hsh', hs'⟩ := echoed_shows hsh hs (by decide) (by decide) (by decide) hm
      have htop : p.top * p.columns < pos p := by
        rw [hec.pos]
        exact Nat.lt_of_le_of_lt hec.top (by omega)
      exact ⟨_, hsh', hs', hec.rubout (put_rubs hc hx htop) h0 rfl m'⟩
    · cases hl
      exact ⟨p, hsh, hs, hec⟩
  · obtain ⟨hc0, hc10, hc8, hc7⟩ := char_of_key hacc.1 he h8
    obtain ⟨m', hm, rfl⟩ := Option.map_eq_some_iff.mp hl
    have hb : (l.store (charOf e)).buffer (l.store (charOf e)).len = charOf e := by
      simp [Line.store]
    rw [hb] at hm
    obtain ⟨hsh', hs'⟩ := echoed_shows hsh hs hc0 hc10 hc7 hm
    have hp : Prints p (TextPage.put glyph p (charOf e)) (glyph (charOf e) ||| p.colour) :=
      put_prints hr hc hx (not_isColour hc7) hc10 hc8
    exact ⟨_, hsh', hs', hec.store hp (by rw [hec.rows, hec.columns]; omega) (by omega) rfl m'⟩
  · cases hl
    exact ⟨p, hsh, hs, hec⟩

lemma blink_view {shown : Bool} (hsh : Shaped m.term) (hm : blink shown m = some m') :
    Shaped m'.term ∧ view m'.term = view m.term := by
  simp only [blink, Option.bind_eq_bind, Option.bind_eq_some_iff] at hm
  obtain ⟨v, -, hm⟩ := hm
  cases hm
  obtain ⟨⟨xs, hl⟩, hok⟩ := hsh
  exact ⟨⟨⟨xs, hl.congr rfl rfl rfl⟩, hok⟩, rfl⟩

lemma Shown.apply (h : Shown p₀ l p) (hcap : l.len + 1 ≤ capacity ∧ capacity ≤ 65535)
    (hrows : capacity ≤ (p₀.rows - 1) * p₀.columns) {ev : Event}
    (he : ∀ e, ev = .entry e → key e ≠ 10) {l' : Line}
    (hl : l.apply around true capacity ev = some l') : ∃ p', Shown p₀ l' p' := by
  cases ev with
  | entry e => exact h.handle hcap hrows (he e rfl) hl
  | blink shown =>
    obtain ⟨m', hm, rfl⟩ := Option.map_eq_some_iff.mp hl
    obtain ⟨hsh, hview⟩ := blink_view h.shaped hm
    exact ⟨p, hsh, by rw [hview]; exact h.shows_, { h.echoes with }⟩

/-! ### Runs -/

/-- The pending line never comes closer than one character to the capacity. -/
def Pends (around : ℤ → ℕ) (capacity : ℕ) (l : Line) (events : List Event) : Prop :=
  ∀ pre post l', events = pre ++ post → l.run around true capacity pre = some l' →
    l'.len + 1 ≤ capacity

theorem Shown.run (h : Shown p₀ l p) (hcap : capacity ≤ 65535)
    (hrows : capacity ≤ (p₀.rows - 1) * p₀.columns) {events : List Event}
    (he : ∀ e, .entry e ∈ events → key e ≠ 10) (hp : Pends around capacity l events) {l' : Line}
    (hl : l.run around true capacity events = some l') : ∃ p', Shown p₀ l' p' := by
  induction events generalizing l p with
  | nil => cases hl; exact ⟨p, h⟩
  | cons ev events ih =>
    simp only [Line.run, List.foldlM_cons, Option.bind_eq_bind, Option.bind_eq_some_iff] at hl
    obtain ⟨l₁, h₁, hl⟩ := hl
    obtain ⟨p₁, hs₁⟩ := h.apply ⟨hp [] _ l rfl rfl, hcap⟩ hrows
      (fun e heq => he e (by simp [heq])) h₁
    refine ih hs₁ (fun e hm => he e (by simp [hm])) (fun pre post l₂ heq hrun => ?_) hl
    refine hp (ev :: pre) post l₂ (by simp [heq]) ?_
    simp only [Line.run, List.foldlM_cons, h₁, Option.bind_eq_bind, Option.bind_some]
    exact hrun

/-- The block cursor is drawn far from the end of the range of the coordinates, if at all. -/
def Blinks (m : Machine) (events : List Event) : Prop :=
  m.term.rows ≤ 8188 ∧ m.term.columns ≤ 8188 ∨ m.term.showCursor = false ∧ .blink true ∉ events

variable (around) in
lemma echoed_some (h : Sound m) (events : List Event) (hb : Blinks m events) {c : UInt8}
    (h0 : c ≠ 0) : ∃ m', echoed around true c m = some m' ∧ Sound m' ∧ Blinks m' events := by
  have ht : IsText [c] := ⟨by simp, by simp [h0]⟩
  obtain ⟨m', hm, hs⟩ := tputs_some around h ht
  have hst := (tputs_steps h.toShaped ht hm).1
  have hrows : m'.term.rows = m.term.rows := hst.rows.trans (puts_rows _)
  have hcols : m'.term.columns = m.term.columns := hst.columns.trans (puts_columns _)
  refine ⟨m', hm, hs, ?_⟩
  unfold Blinks
  rw [hrows, hcols, hst.showCursor]
  exact hb

lemma blink_some (h : Sound m) {events : List Event} (hb : Blinks m events) {shown : Bool}
    (hmem : .blink shown ∈ events) :
    ∃ m', blink shown m = some m' ∧ Sound m' ∧ Blinks m' events := by
  obtain ⟨⟨⟨xs, hl⟩, hok⟩, -, ha⟩ := h
  -- a cursor that is shown is shown on a small screen
  have hd : shown = true → m.term.rows ≤ 8188 ∧ m.term.columns ≤ 8188 := by
    rintro rfl
    exact hb.resolve_right fun hb => hb.2 hmem
  have hl' : Listed { m.term with showCursor := shown } xs := hl.congr rfl rfl rfl
  obtain ⟨v, hv, ha'⟩ := refreshTerminal_some hl' hd false ha
  refine ⟨⟨_, v⟩, by simp only [blink, hv]; rfl, ⟨⟨⟨xs, hl'⟩, hok⟩, hd, ha'⟩, ?_⟩
  cases shown with
  | true => exact Or.inl (hd rfl)
  | false => exact hb.imp_right fun hb => ⟨rfl, hb.2⟩

/-- Events come back. -/
lemma run_some (h : Sound l.machine) {events : List Event}
    (he : ∀ e, .entry e ∈ events → key e ≠ 10) (hb : Blinks l.machine events) :
    ∃ l', l.run around true capacity events = some l' := by
  refine (foldlM_some (fun l => Sound l.machine ∧ Blinks l.machine events)
    (fun ev hev l hl => ?_) ⟨h, hb⟩).imp fun _ hl => hl.1
  obtain ⟨hs, hb⟩ := hl
  cases ev with
  | blink shown =>
    obtain ⟨m', hm, hs', hb'⟩ := blink_some hs hb hev
    exact ⟨{ l with machine := m' }, by simp [Line.apply, hm], hs', hb'⟩
  | entry e =>
    simp only [Line.apply, Line.handle]
    split_ifs with h8 hacc
    · unfold Line.rubout
      split_ifs
      · obtain ⟨m', hm, hs', hb'⟩ := echoed_some around hs events hb (c := 8) (by decide)
        exact ⟨_, by rw [hm]; rfl, hs', hb'⟩
      · exact ⟨l, rfl, hs, hb⟩
    · obtain ⟨hc0, -⟩ := char_of_key hacc.1 (he e hev) h8
      obtain ⟨m', hm, hs', hb'⟩ := echoed_some around hs events hb hc0
      have hc : (l.store (charOf e)).buffer (l.store (charOf e)).len = charOf e := by
        simp [Line.store]
      exact ⟨_, by rw [Line.grow, hc]; simp only [Line.store, hm]; rfl, hs', hb'⟩
    · exact ⟨l, rfl, hs, hb⟩

/-- A newline written since the screen was last cleared is handled in row 65535, which the
16-bit `cursor_y` overflows from. -/
def Overflows (around : ℤ → ℕ) (m : Machine) (ops : List Op) : Prop :=
  ∃ pre u w post m₁ m₂, ops = pre ++ .puts (u ++ 10 :: w) :: post ∧ Op.clear ∉ post ∧
    runOps around m pre = some m₁ ∧ u.foldlM (tputsByte around) m₁ = some m₂ ∧
    m₂.term.wrap.cursorY = 65535

/-- The page in lock step with the buffer of `kgetline`: the line is there, the cells before
it are those of `p₀`, and every cell behind it is blank. -/
structure LineShown (p₀ : Page) (l : Line) (p : Page) : Prop where
  window : Window p.top l.machine.term p
  columns : p.columns = l.machine.term.columns
  pos : pos p = PageOrder.pos p₀ + l.len
  typed : ∀ j < l.len, word p (PageOrder.pos p₀ + j) =
    glyph (l.buffer j) ||| l.machine.term.colour
  before : ∀ q < PageOrder.pos p₀, word p q = word p₀ q
  blank : ∀ q, PageOrder.pos p ≤ q → word p q = 0

lemma Shown.lineShown (h : Shown p₀ l p) : LineShown p₀ l p where
  window := window_of_shows h.shaped h.shows_
  columns := h.shows_.columns.symm
  pos := h.echoes.pos
  typed := fun j hj => by
    rw [h.echoes.typed j hj, show l.machine.term.colour = p.colour from h.shows_.colour]
  before := h.echoes.before
  blank := fun q hq => blank_word h.shows_ (by
    have := h.shaped.ok.columns
    have := h.shows_.columns
    omega) hq

lemma fitsAll_of_split {s : Screen} {msg : List UInt8}
    (h : ∀ u c w, msg = u ++ c :: w → Fits (TextGrid.puts glyph s u) c) : FitsAll glyph s msg := by
  induction msg generalizing s with
  | nil => trivial
  | cons c msg ih =>
    exact ⟨h [] c msg rfl, ih fun u d w heq => h (c :: u) d w (by simp [heq])⟩

variable {rows columns : ℕ}

/-- A run without overflow shows the page that its calls write. -/
lemma shows_pageOf (hr : 2 ≤ rows ∧ rows ≤ 65535)
    (hc : 1 ≤ columns ∧ columns ≤ 65535) (background : ℕ → UInt8) (colour : ℕ) {v : Video}
    (hv : v.AreaOk) {ops : List Op} (ht : ∀ op ∈ ops, Plain op)
    (hm : runOps around (initTerminal rows columns background colour v) ops = some m)
    (ho : ¬ Overflows around (initTerminal rows columns background colour v) ops) :
    Sound m ∧ Shows (view m.term) (pageOf rows columns colour ops) := by
  have hr' : 2 ≤ rows ∧ rows < 65536 := by omega
  have hc' : 1 ≤ columns ∧ columns < 65536 := by omega
  obtain ⟨hs, hview⟩ := initTerminal_sound hr' hc' background colour hv
  have text : ∀ {ops : List Op}, (∀ op ∈ ops, Plain op) → ∀ op ∈ ops, op.Text :=
    fun h op hop => (h op hop).text
  -- a run that comes back shows what the text screen makes of it
  have run : ∀ ops m, (∀ op ∈ ops, Plain op) →
      runOps around (initTerminal rows columns background colour v) ops = some m →
        Sound m ∧ view m.term = runText glyph (blank rows columns colour) ops := by
    intro ops m ht hm
    obtain ⟨m', hm', hs'⟩ := runOps_some around hs (text ht)
    obtain rfl := Option.some.inj (hm.symm.trans hm')
    have h := (runOps_steps hs.toShaped (text ht) hm).1.view
    rw [hview, runText_fontAt around _ ht] at h
    exact ⟨hs', h⟩
  obtain ⟨hsm, hvm⟩ := run ops m ht hm
  refine ⟨hsm, ?_⟩
  rw [hvm]
  refine shows_run (ok_blank hr' hc') (shows_blank rows columns colour)
    fun pre msg post heq hcl => ?_
  refine fitsAll_of_split fun u c w hmsg h10 hy => ho ?_
  subst heq hmsg h10
  have hpre : ∀ op ∈ pre, Plain op := fun op hop => ht op (by simp [hop])
  have hu : IsPlain u := by
    obtain ⟨hlen, hch⟩ : IsPlain (u ++ 10 :: w) := ht (.puts (u ++ 10 :: w)) (by simp)
    simp only [List.length_append] at hlen
    exact ⟨by omega, fun c hc => hch c (by simp [hc])⟩
  obtain ⟨m₁, h₁, hs₁⟩ := runOps_some around hs (text hpre)
  obtain ⟨-, hv₁⟩ := run pre m₁ hpre h₁
  obtain ⟨m₂, h₂, -⟩ := bytes_some around hs₁ u
  have hv₂ := (bytes_steps hs₁.toShaped h₂).1.view
  rw [puts_fontAt around _ hu, hv₁] at hv₂
  refine ⟨pre, u, w, post, m₁, m₂, rfl, hcl, h₁, h₂, ?_⟩
  rw [← hv₂, ← view_wrap] at hy
  exact hy

/-- **What the user sees is what the shell gets.** A line is begun on a terminal that earlier
calls have written without an overflow, and its entries do not fill the buffer. Handling them
comes back, unless a block cursor is drawn out of range, and whenever it does the page shows
the line where it was begun. -/
theorem line_echo (hr : 2 ≤ rows ∧ rows ≤ 65535) (hc : 1 ≤ columns ∧ columns ≤ 65535)
    (background : ℕ → UInt8) (colour : ℕ) {v : Video} (hv : v.AreaOk) {ops : List Op}
    (ht : ∀ op ∈ ops, Plain op)
    (hm : runOps around (initTerminal rows columns background colour v) ops = some m)
    (ho : ¬ Overflows around (initTerminal rows columns background colour v) ops)
    (buffer : ℕ → UInt8) (hcap : capacity ≤ 65535) (hrows : capacity ≤ (rows - 1) * columns)
    {events : List Event} (he : ∀ e, .entry e ∈ events → key e ≠ 10)
    (hp : Pends around capacity ⟨0, buffer, m⟩ events) :
    (Blinks m events → ∃ l, Line.run around true capacity ⟨0, buffer, m⟩ events = some l) ∧
    ∀ l, Line.run around true capacity ⟨0, buffer, m⟩ events = some l →
      ∃ cs, LineShown (pageOf rows columns colour ops) l
        (TextPage.puts glyph (pageOf rows columns colour ops) cs) := by
  obtain ⟨hs, hsh⟩ := shows_pageOf hr hc background colour hv ht hm ho
  refine ⟨run_some (l := ⟨0, buffer, m⟩) hs he, fun l hl => ?_⟩
  set p₀ := pageOf rows columns colour ops with hp₀
  have hfr := frame_run (s := blank rows columns colour) (p := blankPage rows columns colour)
    ⟨rfl, rfl, rfl⟩ ops
  have hprows : p₀.rows = rows := hfr.rows.symm.trans (runText_rows glyph _ ops)
  have hpcols : p₀.columns = columns := hfr.columns.symm.trans (runText_columns glyph _ ops)
  have htop : p₀.top * p₀.columns ≤ PageOrder.pos p₀ := by
    have hle : p₀.top ≤ p₀.y := by rw [← hsh.y]; exact Nat.le_add_right _ _
    exact Nat.le_trans (Nat.mul_le_mul_right _ hle) (Nat.le_add_right _ _)
  have h₀ : Shown p₀ ⟨0, buffer, m⟩ p₀ := ⟨hs.toShaped, hsh,
    ⟨rfl, fun j hj => absurd hj (Nat.not_lt_zero j), fun q _ => rfl, htop, rfl, rfl, rfl, [], rfl⟩⟩
  obtain ⟨p, h⟩ := h₀.run hcap (by rw [hprows, hpcols]; exact hrows) he hp hl
  obtain ⟨cs, rfl⟩ := h.echoes.written
  exact ⟨cs, h.lineShown⟩

/-- An `A` is typed behind a prompt. -/
theorem line_echo_prompt : ∃ m l cs,
    runOps (fun _ => 0) (initTerminal 2 2 (fun _ => 0) 7 (.boot fun _ => 0)) [.puts [62]] = some m ∧
    Line.run (fun _ => 0) true 2 ⟨0, fun _ => 0, m⟩ [.entry 30] = some l ∧
    LineShown (pageOf 2 2 7 [.puts [62]]) l
      (TextPage.puts glyph (pageOf 2 2 7 [.puts [62]]) cs) := by
  have ht : ∀ op ∈ [Op.puts [62]], Plain op := by simp [Plain, IsPlain]
  obtain ⟨hs, -⟩ := initTerminal_sound (show 2 ≤ 2 ∧ 2 < 65536 by omega)
    (show 1 ≤ 2 ∧ 2 < 65536 by omega) (fun _ => 0) 7 (areaOk_boot fun _ => 0)
  obtain ⟨m, hm, -⟩ := runOps_some (fun _ => 0) hs fun op hop => (ht op hop).text
  -- the lengths of the line before and after the entry
  have hlen : ∀ pre post l, [Event.entry 30] = pre ++ post →
      Line.run (fun _ => 0) true 2 ⟨0, fun _ => 0, m⟩ pre = some l → l.len + 1 ≤ 2 := by
    intro pre post l heq hl
    have hl' : ((runOps (fun _ => 0) (initTerminal 2 2 (fun _ => 0) 7 (.boot fun _ => 0))
        [.puts [62]]).bind fun m => Line.run (fun _ => 0) true 2 ⟨0, fun _ => 0, m⟩ pre).map
          Line.len = some l.len := by rw [hm, Option.bind_some, hl]; rfl
    rcases pre with _ | ⟨e, _ | ⟨e', pre⟩⟩
    · cases hl
      exact show 0 + 1 ≤ 2 by decide
    · obtain rfl : Event.entry 30 = e := by simpa using (List.cons.inj heq).1
      have h1 : l.len = 1 := Option.some.inj (hl'.symm.trans (by decide +kernel))
      omega
    · simp at heq
  obtain ⟨hrun, hshown⟩ := line_echo (show 2 ≤ 2 ∧ 2 ≤ 65535 by omega)
    (show 1 ≤ 2 ∧ 2 ≤ 65535 by omega) (fun _ => 0) 7 (areaOk_boot fun _ => 0) ht hm
    (by
      rintro ⟨pre, u, w, post, m₁, m₂, heq, -⟩
      have hmem : Op.puts (u ++ 10 :: w) ∈ [Op.puts [62]] := by rw [heq]; simp
      have heq' : u ++ 10 :: w = [62] := by simpa using hmem
      have h10 : (10 : UInt8) ∈ [62] := by rw [← heq']; simp
      exact absurd h10 (by decide))
    (fun _ => 0) (show 2 ≤ 65535 by decide) (show 2 ≤ (2 - 1) * 2 by decide)
    (show ∀ e, .entry e ∈ [Event.entry 30] → key e ≠ 10 by
      intro e he
      obtain rfl : e = 30 := by simpa using he
      decide) hlen
  have hshow := (runOps_steps hs.toShaped (fun op hop => (ht op hop).text) hm).1.showCursor
  obtain ⟨l, hl⟩ := hrun (Or.inr ⟨hshow, by simp⟩)
  obtain ⟨cs, h⟩ := hshown l hl
  exact ⟨m, l, cs, hm, hl, h⟩

/-! ### The overflow -/

/-- A column filled to row `n`. -/
def column (rows n v colour : ℕ) : Screen :=
  ⟨rows, 1, 1, n, colour, fun r c => if r ≤ n ∧ c = 0 then v else 0⟩

lemma put_column {glyph : UInt8 → ℕ} {s : Screen} {rows n colour : ℕ} {cell : ℕ → ℕ → ℕ}
    (h : s.wrap.follow = ⟨rows, 1, 0, n, colour, cell⟩) (hcol : s.colour = colour)
    (hcell : ∀ r c, r ≠ n → cell r c = if r < n ∧ c = 0 then glyph 65 ||| colour else 0)
    (hlast : ∀ c, cell n c = 0) :
    TextGrid.put glyph s 65 = column rows n (glyph 65 ||| colour) colour := by
  rw [TextGrid.put, if_neg (by decide), if_neg (by decide), if_neg (by decide), h, hcol]
  show Screen.mk _ _ _ _ _ _ = Screen.mk _ _ _ _ _ _
  congr 1
  funext r c
  rw [screen_store]
  by_cases hr : r = n
  · subst hr
    by_cases hc : c = 0 <;> simp [hc, hlast]
  · show (if _ then _ else cell r c) = _
    rw [if_neg fun h => hr h.1, hcell r c hr]
    simp only [show r ≤ n ↔ r < n by omega]

lemma puts_column {glyph : UInt8 → ℕ} {rows colour n : ℕ} (hn : n < rows) (hr : rows < 65536) :
    TextGrid.puts glyph (blank rows 1 colour) (List.replicate (n + 1) 65) =
      column rows n (glyph 65 ||| colour) colour := by
  induction n with
  | zero =>
    have hw : (blank rows 1 colour).wrap = blank rows 1 colour := Screen.wrap_of_lt _ Nat.one_pos
    have hf : (blank rows 1 colour).follow = blank rows 1 colour := Screen.follow_of_lt _ hn
    refine put_column (by rw [hw, hf]; rfl) rfl (fun r c _ => ?_) fun c => rfl
    simp
  | succ n ih =>
    rw [List.replicate_succ', TextGrid.puts_append, ih (by omega)]
    set v := glyph 65 ||| colour
    have hw : (column rows n v colour).wrap =
        ⟨rows, 1, 0, n + 1, colour, (column rows n v colour).cell⟩ := by
      rw [← inc_of_lt (show n + 1 < 2 ^ 16 by omega)]
      exact if_pos (Nat.le_refl 1)
    refine put_column (by rw [hw, Screen.follow_of_lt _ hn]) rfl (fun r c _ => ?_) fun c => ?_
    · simp only [column, Nat.lt_succ_iff]
      rfl
    · simp [column]

/-- A newline behind a full column of 65535 rows takes the cursor from the last row to row
65536, which is the top row. -/
lemma column_newline {glyph : UInt8 → ℕ} {rows n v colour : ℕ} (hr : rows = 65535)
    (hn : n + 1 = rows) : TextGrid.puts glyph (column rows n v colour) [10] =
      ⟨rows, 1, 0, 0, colour, (column rows n v colour).cell⟩ := by
  have hw : (column rows n v colour).wrap =
      ⟨rows, 1, 0, rows, colour, (column rows n v colour).cell⟩ := by
    rw [← hn, ← inc_of_lt (show n + 1 < 2 ^ 16 by omega)]
    exact if_pos (Nat.le_refl 1)
  show TextGrid.put glyph _ 10 = _
  rw [TextGrid.put, if_neg (by decide), if_pos rfl, hw]
  simp only [Screen.newline, inc_max (show rows + 1 = 2 ^ 16 by omega)]
  exact if_neg (show ¬ rows ≤ 0 by omega)

/-- A screen with a letter in its first cell and the cursor there is in no lock step. -/
lemma not_lineShown {rows v : ℕ} {xs : List ℕ} (hl : Listed m.term xs) (hr : 0 < rows) (hv : v ≠ 0)
    {colour : ℕ} {cell : ℕ → ℕ → ℕ} (hview : view m.term = ⟨rows, 1, 0, 0, colour, cell⟩)
    (hcell : cell 0 0 = v) (p₀ p : Page) (buffer : ℕ → UInt8) :
    ¬ LineShown p₀ ⟨0, buffer, m⟩ p := by
  intro h
  have hrows : m.term.rows = rows := congrArg Screen.rows hview
  have hcols : m.term.columns = 1 := congrArg Screen.columns hview
  have hpc : p.cell p.top 0 = v := by
    have h1 := hl.cellAt_view (r := 0) (c := 0) (by omega) (by omega)
    have h2 := h.window.cell 0 (by rw [hrows]; exact hr) 0 (by rw [hcols]; exact Nat.one_pos)
    rw [h1, Option.some.injEq, hview] at h2
    exact h2.symm.trans hcell
  have hx : p.x = 0 := h.window.x.symm.trans (congrArg Screen.x hview)
  have hy : p.y = p.top := h.window.y.symm.trans (by
    rw [show m.term.cursorY = 0 from congrArg Screen.y hview, Nat.add_zero])
  have hblank := h.blank (pos p) (Nat.le_refl _)
  rw [word, pos, show p.columns = 1 from h.columns.trans hcols, hx, hy] at hblank
  simp only [Nat.mul_one, Nat.add_zero, Nat.div_one, Nat.mod_one, hpc] at hblank
  exact hv hblank

lemma line_overflow {rows : ℕ} (hr : rows = 65535) {msg : List UInt8}
    (hmsg : msg = List.replicate rows 65) : ∃ m l,
    runOps (fun _ => 0) (initTerminal rows 1 (fun _ => 0) 7 (.boot fun _ => 0))
      [.puts msg, .puts [10]] = some m ∧
    Line.run (fun _ => 0) true 10 ⟨0, fun _ => 0, m⟩ [.entry 0x9E] = some l ∧
    ∀ p₀ p, ¬ LineShown p₀ l p := by
  obtain ⟨hs, hview⟩ := initTerminal_sound (show 2 ≤ rows ∧ rows < 65536 by omega)
    (show 1 ≤ 1 ∧ 1 < 65536 by omega) (fun _ => 0) 7 (areaOk_boot fun _ => 0)
  have ht : ∀ op ∈ [Op.puts msg, .puts [10]], Plain op := by
    have h1 : IsPlain msg := by
      rw [hmsg]
      refine ⟨by rw [List.length_replicate]; omega, fun c hc => ?_⟩
      rw [(List.mem_replicate.mp hc).2]
      decide
    simp only [List.mem_cons, List.not_mem_nil, or_false]
    rintro op (rfl | rfl)
    · exact h1
    · simp [Plain, IsPlain]
  have htext : ∀ op ∈ [Op.puts msg, .puts [10]], op.Text := fun op hop => (ht op hop).text
  obtain ⟨m, hm, hs'⟩ := runOps_some (fun _ => 0) hs htext
  have hv := (runOps_steps hs.toShaped htext hm).1.view
  rw [hview, runText_fontAt _ _ ht] at hv
  simp only [runText, List.foldl_cons, List.foldl_nil, applyText] at hv
  obtain ⟨n, rfl⟩ : ∃ n, rows = n + 1 := ⟨rows - 1, by omega⟩
  rw [hmsg, puts_column (Nat.lt_succ_self n) (by omega), column_newline hr rfl] at hv
  obtain ⟨xs, hl⟩ := hs'.listed
  refine ⟨m, ⟨0, fun _ => 0, m⟩, hm, rfl, fun p₀ p => ?_⟩
  refine not_lineShown hl (Nat.succ_pos n) (show glyph 65 ||| 7 ≠ 0 by decide) hv ?_ p₀ p _
  simp [column]

/-- A column of 65535 rows is filled to its end, and a newline written: the cursor is back in
the top row, and the line that is then pending has text behind it. -/
theorem line_echo_overflow : ∃ m l,
    runOps (fun _ => 0) (initTerminal 65535 1 (fun _ => 0) 7 (.boot fun _ => 0))
      [.puts (List.replicate 65535 65), .puts [10]] = some m ∧
    Line.run (fun _ => 0) true 10 ⟨0, fun _ => 0, m⟩ [.entry 0x9E] = some l ∧
    ∀ p₀ p, ¬ LineShown p₀ l p :=
  line_overflow rfl rfl

end Mono98.LineEcho
