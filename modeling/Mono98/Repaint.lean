import Mono98.Keyboard
import Mono98.PageWindow
import Mono98.Picture

/-!
Incremental repainting agrees with a full repaint.

Between two refreshes text only comes in on blank cells, and the cursor only moves on, unless
the background is redrawn. This keeps the screen settled through strings, clearings and the
blinking of the cursor, and every call leaves the picture that a full refresh would leave.
-/

namespace Mono98.Repaint

open Mono98.Graphics Mono98.Tty Mono98.TextGrid Mono98.TtyRows Mono98.TtyRun Mono98.TextPage
open Mono98.PageWindow Mono98.Keyboard Mono98.Picture Mono98.Lib.Word Mono98.Lib.Fold

variable (around : ℤ → ℕ)

/-- The terminal with the block cursor shown or hidden. -/
def showing (shown : Bool) (m : Machine) : Machine :=
  { m with term := { m.term with showCursor := shown } }

/-- What happens to a terminal on the screen; `kgetline` sets `show_cursor` and then refreshes
or echoes. -/
inductive Action
  | puts (msg : List UInt8)
  | clear
  | blink (shown : Bool)
  | echo (shown : Bool) (msg : List UInt8)

def Action.Text : Action → Prop
  | .puts msg => IsText msg
  | .clear => True
  | .blink _ => True
  | .echo _ msg => IsText msg

def act (m : Machine) : Action → Option Machine
  | .puts msg => tputs around m msg
  | .clear => clearTerminal m
  | .blink shown => Keyboard.blink shown m
  | .echo shown msg => tputs around (showing shown m) msg

def acts (m : Machine) (actions : List Action) : Option Machine := actions.foldlM (act around) m

variable {around} {s : Screen} {p : Page} {t t' t₀ : Terminal} {v v' : Video} {m m' : Machine}

/-! ### Bytes that draw nothing -/

/-- The position `q` comes behind the cursor of the screen. -/
def After (s : Screen) (q : ℕ × ℕ) : Prop := s.y < q.1 ∨ s.y = q.1 ∧ s.x < q.2

lemma blank_from (h : Shows s p) {q : ℕ × ℕ} (hr : q.1 < s.rows) (hc : q.2 < s.columns)
    (hq : s.y < q.1 ∨ s.y = q.1 ∧ s.x ≤ q.2) : s.cell q.1 q.2 = 0 := by
  have hx := h.x
  have hy := h.y
  rw [h.cell q.1 hr q.2 hc]
  exact h.blank _ _ hc (by omega)

lemma After.of_wrap (ok : Ok s) (hr : s.rows ≤ 65534) {q : ℕ × ℕ} (h : After s.wrap q) :
    After s q := by
  have hy := ok.y
  unfold Screen.wrap at h
  split_ifs at h with hw
  · unfold After at h ⊢
    simp only [inc_of_lt (show s.y + 1 < 2 ^ 16 by omega)] at h
    omega
  · exact h

lemma After.of_newline (hy : s.y + 1 < 2 ^ 16) {q : ℕ × ℕ} (h : After s.newline q) : After s q := by
  unfold After at h ⊢
  simp only [Screen.newline, inc_of_lt hy] at h
  omega

lemma After.of_advance (hx : s.x + 1 < 2 ^ 16) {q : ℕ × ℕ} (h : After s.advance q) : After s q := by
  unfold After at h ⊢
  simp only [Screen.advance, inc_of_lt hx] at h
  omega

/-- A byte that draws nothing writes on a blank cell, if at all, and moves the cursor on. -/
lemma put_quiet (glyph : UInt8 → ℕ) (ok : Ok s) (h : Shows s p) (hr : s.rows ≤ 65534) {c : UInt8}
    (hp : paint s c = .nothing) :
    (∀ q : ℕ × ℕ, q.1 < s.rows → q.2 < s.columns →
      (TextGrid.put glyph s c).cell q.1 q.2 = s.cell q.1 q.2 ∨ s.cell q.1 q.2 = 0) ∧
    ∀ q, After (TextGrid.put glyph s c) q → After s q := by
  have hcols := ok.columns
  obtain ⟨hwx, hwy⟩ := ok.wrap
  unfold paint at hp
  unfold TextGrid.put
  by_cases hcol : IsColour c
  · rw [if_pos hcol]
    exact ⟨fun _ _ _ => Or.inl rfl, fun _ h => h⟩
  rw [if_neg hcol] at hp ⊢
  by_cases hnl : c = 10
  · rw [if_pos hnl] at hp ⊢
    have hlt : ¬ s.rows ≤ s.wrap.newline.y := fun hle => by rw [if_pos hle] at hp; cases hp
    rw [Screen.follow_of_lt _ (by simpa [Screen.newline] using hlt)]
    refine ⟨fun q _ _ => Or.inl (by simp [Screen.newline]), fun q hq => ?_⟩
    exact (hq.of_newline (by omega)).of_wrap ok hr
  rw [if_neg hnl] at hp ⊢
  by_cases hbs : c = 8
  · rw [if_pos hbs] at hp ⊢
    have h0 : s.wrap.x = 0 ∧ s.wrap.y = 0 := by
      by_contra h0
      rw [if_neg h0] at hp
      cases hp
    rw [if_pos h0]
    exact ⟨fun q _ _ => Or.inl (by rw [Screen.wrap_cell]), fun q hq => hq.of_wrap ok hr⟩
  · rw [if_neg hbs] at hp ⊢
    have hlt : ¬ s.rows ≤ s.wrap.y := fun hle => by rw [if_pos hle] at hp; cases hp
    rw [Screen.follow_of_lt _ (by simpa using hlt)]
    refine ⟨fun q hq1 hq2 => ?_, fun q hq => ?_⟩
    · show (s.wrap.store _).cell q.1 q.2 = _ ∨ _
      rw [screen_store, Screen.wrap_cell]
      split_ifs with hat
      · -- the cell under the cursor of the wrapped screen is blank
        have hw := shows_wrap ok h
        rw [← Screen.wrap_cell]
        exact Or.inr (blank_from hw (by simpa using hq1) (by simpa using hq2) (by omega))
      · exact Or.inl rfl
    · have hq' : After s.wrap.advance q := hq
      exact (hq'.of_advance (by omega)).of_wrap ok hr

/-! ### The screen stays settled -/

/-- The same grid on the same background. -/
structure SameGrid (t t' : Terminal) : Prop where
  rows : t'.rows = t.rows
  columns : t'.columns = t.columns
  background : t'.background = t.background

/-- The invariant of a run from the terminal `t₀`: the text is sound and on the screen, and the
screen is settled. -/
structure Good (t₀ : Terminal) (m : Machine) : Prop where
  same : SameGrid t₀ m.term
  shaped : Shaped m.term
  fits : FitsScreen m.term
  shows : ∃ p, Shows (view m.term) p
  settled : Settled m.term m.video

/-- The cell under the block cursor is blank. -/
lemma blank_cursor (h : ∃ p, Shows (view t) p) :
    ∀ q ∈ grid t, HasCursor t q → code t q = 0 := by
  obtain ⟨p, h⟩ := h
  rintro q hq ⟨hy, hx, -⟩
  obtain ⟨hr, hc⟩ := mem_grid.mp hq
  exact blank_from h hr hc (Or.inr ⟨hy.symm, Nat.le_of_eq hx.symm⟩)

lemma SameGrid.trans {t'' : Terminal} (h : SameGrid t t') (h' : SameGrid t' t'') :
    SameGrid t t'' :=
  ⟨h'.rows.trans h.rows, h'.columns.trans h.columns, h'.background.trans h.background⟩

lemma SameGrid.grid (h : SameGrid t t') : grid t' = grid t := by
  rw [Picture.grid, Picture.grid, h.rows, h.columns]

lemma SameGrid.saved (h : SameGrid t t') (hs : Saved t v) : Saved t' v := by
  simpa only [Saved, h.grid, paper, h.background] using hs

/-- Text on blank cells and a cursor that moves on leave the screen settled. -/
lemma SameGrid.settled (h : SameGrid t t') (hs : Settled t v)
    (hcode : ∀ q ∈ Picture.grid t, code t' q = code t q ∨ code t q = 0)
    (hcur : ∀ q, Behind t' q → Behind t q) : Settled t' v := by
  refine ⟨h.saved hs.saved, fun q hq => ?_, fun p hp hno => ?_⟩
  · rw [h.grid] at hq
    refine (hs.ready q hq).imp (fun hc d hd hl => ?_) (And.imp_right fun hb hb' => hb (hcur q hb'))
    have hp : paper t' q d = paper t q d := by rw [paper, paper, h.background]
    rw [hp]
    refine hc d hd ?_
    rcases hcode q hq with he | h0
    · rwa [← he]
    · rw [h0]
      simp [Lit]
  · rw [h.grid] at hno
    rw [h.background]
    exact hs.off p hp hno

lemma sameGrid_of_steps {s : Screen} (h : Steps t t' s) (hr : s.rows = t.rows)
    (hc : s.columns = t.columns) : SameGrid t t' :=
  ⟨h.rows.trans hr, h.columns.trans hc, background_eq h.rest⟩

/-- The invariant after a byte. -/
lemma good_byte (h : Good t₀ m) (c : UInt8) :
    ∃ m', tputsByte around m c = some m' ∧ Good t₀ m' := by
  obtain ⟨xs, hl⟩ := h.shaped.listed
  have ok := h.shaped.ok
  obtain ⟨p, hp⟩ := h.shows
  have hrows : (view m.term).rows ≤ 65534 := by have := h.fits.1; simp only [view]; omega
  obtain ⟨t', hs, heq⟩ := tputsByte_eq around hl ok c
  have hg : SameGrid m.term t' := sameGrid_of_steps hs (put_rows c) (put_columns c)
  have hf : FitsScreen t' := by unfold FitsScreen; rw [hg.rows, hg.columns]; exact h.fits
  have hshows : ∃ p, Shows (view t') p :=
    ⟨_, by rw [hs.view]; exact shows_put ok hp (fits_of_rows ok hrows c)⟩
  have hshape : Shaped t' := ⟨hs.listed, by rw [hs.view]; exact ok_put ok c⟩
  obtain ⟨xs', hl'⟩ := hs.listed
  obtain ⟨v, hv, hset⟩ : ∃ v, draw (paint (view m.term) c) t' m.video = some v ∧ Settled t' v := by
    cases hpaint : paint (view m.term) c with
    | nothing =>
      obtain ⟨hcell, hcur⟩ := put_quiet (fontAt around) ok hp hrows hpaint
      rw [← hs.view] at hcell hcur
      refine ⟨m.video, rfl, hg.settled h.settled (fun q hq => ?_) hcur⟩
      obtain ⟨hr, hc⟩ := mem_grid.mp hq
      exact hcell q hr hc
    | background => exact ⟨_, rfl, settled_background hf (hg.saved h.settled.saved)⟩
    | everything =>
      obtain ⟨v, hv, -, hset⟩ :=
        redraw_pictures hl' hf (blank_cursor hshows) (hg.saved h.settled.saved)
      exact ⟨v, hv, hset⟩
  exact ⟨⟨t', v⟩, by rw [heq, hv]; rfl, h.same.trans hg, hshape, hf, hshows, hset⟩

/-- A refresh leaves the picture. -/
lemma good_refresh (h : Good t₀ m) : ∃ v, refreshTerminal m.term false m.video = some v ∧
    Good t₀ ⟨m.term, v⟩ ∧ Pictures m.term v := by
  obtain ⟨xs, hl⟩ := h.shaped.listed
  obtain ⟨v, hv, hp, hset⟩ := refresh_pictures hl h.fits (blank_cursor h.shows) h.settled
  exact ⟨v, hv, ⟨h.same, h.shaped, h.fits, h.shows, hset⟩, hp⟩

variable (around)

lemma good_tputs (h : Good t₀ m) {msg : List UInt8} (ht : IsText msg) :
    ∃ m', tputs around m msg = some m' ∧ Good t₀ m' ∧ Pictures m'.term m'.video := by
  obtain ⟨m₁, h₁, hg⟩ : ∃ m₁, msg.foldlM (tputsByte around) m = some m₁ ∧ Good t₀ m₁ :=
    foldlM_some (Good t₀) (fun c _ _ hm => good_byte hm c) h
  obtain ⟨v, hv, hg', hp⟩ := good_refresh hg
  exact ⟨⟨m₁.term, v⟩, by rw [tputs_eq around ht, h₁, Option.bind_some, hv]; rfl, hg', hp⟩

lemma good_clear (h : Good t₀ m) :
    ∃ m', clearTerminal m = some m' ∧ Good t₀ m' ∧ Pictures m'.term m'.video := by
  obtain ⟨xs, hl⟩ := h.shaped.listed
  obtain ⟨p, hp⟩ := h.shows
  obtain ⟨hl', hview⟩ := blankRows_listed hl
  have hshows : ∃ p, Shows (view (m.term.blankRows xs)) p :=
    ⟨_, by rw [hview]; exact shows_clear ⟨hp.rows, hp.columns, hp.colour⟩⟩
  have hshape : Shaped (m.term.blankRows xs) :=
    ⟨⟨xs, hl'⟩, by rw [hview]; exact ok_clear h.shaped.ok⟩
  have hg : SameGrid m.term (m.term.blankRows xs) := ⟨rfl, rfl, rfl⟩
  obtain ⟨v, hv, hpic, hset⟩ :=
    redraw_pictures hl' h.fits (blank_cursor hshows) (hg.saved h.settled.saved)
  exact ⟨⟨m.term.blankRows xs, v⟩, by rw [clearTerminal_eq hl, hv]; rfl,
    ⟨h.same.trans hg, hshape, h.fits, hshows, hset⟩, hpic⟩

/-- Showing or hiding the cursor does not touch the text. -/
lemma good_showing (h : Good t₀ m) (shown : Bool) : Good t₀ (showing shown m) := by
  obtain ⟨xs, hl⟩ := h.shaped.listed
  exact ⟨⟨h.same.rows, h.same.columns, h.same.background⟩,
    ⟨⟨xs, hl.congr rfl rfl rfl⟩, h.shaped.ok⟩, h.fits, h.shows,
    h.settled.saved, h.settled.ready, h.settled.off⟩

/-- **One call** leaves the picture. -/
theorem good_act (h : Good t₀ m) {a : Action} (ht : a.Text) :
    ∃ m', act around m a = some m' ∧ Good t₀ m' ∧ Pictures m'.term m'.video := by
  cases a with
  | puts msg => exact good_tputs around h ht
  | clear => exact good_clear h
  | blink shown =>
    obtain ⟨v, hv, hg, hp⟩ := good_refresh (good_showing h shown)
    refine ⟨⟨(showing shown m).term, v⟩, ?_, hg, hp⟩
    rw [act, Keyboard.blink, Option.bind_eq_bind]
    exact Option.bind_eq_some_iff.mpr ⟨v, hv, rfl⟩
  | echo shown msg => exact good_tputs around (good_showing h shown) ht

theorem good_acts (h : Good t₀ m) (hp : Pictures m.term m.video) {actions : List Action}
    (ht : ∀ a ∈ actions, a.Text) :
    ∃ m', acts around m actions = some m' ∧ Good t₀ m' ∧ Pictures m'.term m'.video :=
  foldlM_some (fun m => Good t₀ m ∧ Pictures m.term m.video)
    (fun _ ha _ hm => good_act around hm.1 (ht _ ha)) ⟨h, hp⟩

variable {rows columns : ℕ}

/-- A fresh terminal, after its first refresh. -/
lemma good_initTerminal (hr : 2 ≤ rows ∧ rows ≤ 21) (hc : 1 ≤ columns ∧ columns ≤ 36)
    (background : ℕ → UInt8) (colour : ℕ) {v : Video} (hv : v.areaX = 65535 ∧ v.areaY = 65535) :
    let m := initTerminal rows columns background colour v
    ∃ v₀, refreshTerminal m.term true m.video = some v₀ ∧ Good m.term ⟨m.term, v₀⟩ ∧
      Pictures m.term v₀ := by
  intro m
  obtain ⟨hs, hview⟩ := initTerminal_sound (show 2 ≤ rows ∧ rows < 65536 by omega)
    (show 1 ≤ columns ∧ columns < 65536 by omega) background colour (Or.inl hv)
  have hf : FitsScreen m.term := ⟨hr.2, hc.2⟩
  have hshows : ∃ p, Shows (view m.term) p := ⟨_, by rw [hview]; exact shows_blank _ _ _⟩
  obtain ⟨xs, hl⟩ := hs.listed
  obtain ⟨v₀, hv₀, hp, hset⟩ :=
    redraw_pictures hl hf (blank_cursor hshows) (show Saved m.term m.video from Or.inl hv)
  exact ⟨v₀, hv₀, ⟨⟨rfl, rfl, rfl⟩, hs.toShaped, hf, hshows, hset⟩, hp⟩

/-- **Repainting.** From a fresh terminal and its first refresh on, every call leaves the
picture of the text on the screen, and a full refresh would leave no other. -/
theorem repaint_full (hr : 2 ≤ rows ∧ rows ≤ 21) (hc : 1 ≤ columns ∧ columns ≤ 36)
    (background : ℕ → UInt8) (colour : ℕ) {v : Video} (hv : v.areaX = 65535 ∧ v.areaY = 65535)
    {actions : List Action} (ht : ∀ a ∈ actions, a.Text) :
    let m₀ := initTerminal rows columns background colour v
    ∃ v₀ m, refreshTerminal m₀.term true m₀.video = some v₀ ∧
      acts around ⟨m₀.term, v₀⟩ actions = some m ∧ SameGrid m₀.term m.term ∧
      Pictures m.term m.video ∧
      ∃ v', refreshTerminal m.term true m.video = some v' ∧
        ∀ p, OnScreen p → m.video.mem p = v'.mem p := by
  intro m₀
  obtain ⟨v₀, hv₀, hg, hp⟩ := good_initTerminal hr hc background colour hv
  obtain ⟨m, hm, hgm, hpm⟩ := good_acts around hg hp ht
  obtain ⟨xs, hl⟩ := hgm.shaped.listed
  obtain ⟨v', hv', hp', -⟩ :=
    redraw_pictures hl hgm.fits (blank_cursor hgm.shows) hgm.settled.saved
  exact ⟨v₀, m, hv₀, hm, hgm.same, hpm, v', hv', fun p hp => hpm.unique hp' hp⟩

/-- Two rows of three columns: `HI`, a blinking cursor, an echoed `A`, and a newline. -/
theorem repaint_full_blink : ∃ v₀ m,
    refreshTerminal (initTerminal 2 3 (fun _ => 9) 7 (.boot fun _ => 0)).term true
      (initTerminal 2 3 (fun _ => 9) 7 (.boot fun _ => 0)).video = some v₀ ∧
    acts (fun _ => 0) ⟨(initTerminal 2 3 (fun _ => 9) 7 (.boot fun _ => 0)).term, v₀⟩
      [.puts [72, 73], .blink true, .echo true [65], .blink false, .puts [10]] = some m ∧
    Pictures m.term m.video := by
  obtain ⟨v₀, m, hv₀, hm, -, hp, -⟩ := repaint_full (fun _ => 0)
    (show 2 ≤ 2 ∧ 2 ≤ 21 by omega) (show 1 ≤ 3 ∧ 3 ≤ 36 by omega) (fun _ => 9) 7
    (show (Video.boot fun _ => 0).areaX = 65535 ∧ (Video.boot fun _ => 0).areaY = 65535 from
      ⟨rfl, rfl⟩)
    (show ∀ a ∈ [Action.puts [72, 73], .blink true, .echo true [65], .blink false, .puts [10]],
      a.Text by simp [Action.Text, IsText])
  exact ⟨v₀, m, hv₀, hm, hp⟩

end Mono98.Repaint
