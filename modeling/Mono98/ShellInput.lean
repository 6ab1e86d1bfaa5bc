import Mathlib.Data.List.Infix
import Mono98.ShellRun

/-!
From the keyboard to the screen.

The bytes of the keyboard come in at any time while the shell waits for a line, and go on to
come in behind Enter. The line is the one of the reference editor up to the first Enter, the
page has its echo, and the shell goes on by itself to the answer.
-/

namespace Mono98.ShellInput

open Mono98.Graphics Mono98.Tty Mono98.TtyRun Mono98.TextPage Mono98.Strings Mono98.Keyboard
open Mono98.KeyboardLine Mono98.LineBuffer Mono98.LineInput Mono98.Process Mono98.Romdisk
open Mono98.RomdiskLookup Mono98.Command Mono98.CommandRun Mono98.Listing
open Mono98.Shell Mono98.Console Mono98.ScreenPage Mono98.ShellAnswer Mono98.ShellRefines
open Mono98.ShellRun Mono98.Repaint Mono98.Lib.Bytes Mono98.Lib.Word Mono98.Lib.Progress
open Mono98.Lib.Simulation
open Mono98.KeyboardRing (start inv_start inv_reaches)

/-! ### The page of an editor -/

variable (glyph : UInt8 → ℕ)

/-- What a change of the line puts on the page: the characters behind it, or a backspace. -/
def echo (p : Page) (line line' : List UInt8) : Page :=
  if line.length < line'.length then TextPage.puts glyph p (line'.drop line.length)
  else if line'.length < line.length then TextPage.puts glyph p [8]
  else p

/-- The reference editor, and the page that it echoes to. -/
structure Desk where
  editor : Editor
  page : Page

def Desk.byte (d : Desk) (b : UInt8) : Desk :=
  ⟨d.editor.byte b, echo glyph d.page d.editor.line (d.editor.byte b).line⟩

/-- The desk behind the bytes `raw`, with a shift key held from the start or not. -/
def desk (shift : Bool) (p : Page) (raw : List UInt8) : Desk :=
  raw.foldl (Desk.byte glyph) ⟨⟨shift, []⟩, p⟩

/-- The line of the entries of a log, and the page that it is echoed to. -/
structure Draft where
  line : List UInt8
  page : Page

def Draft.entry (d : Draft) (e : UInt16) : Draft :=
  ⟨edit d.line e, echo glyph d.page d.line (edit d.line e)⟩

def draft (p : Page) (es : List UInt16) : Draft := es.foldl (Draft.entry glyph) ⟨[], p⟩

variable {glyph} {shift : Bool} {p : Page} {raw : List UInt8} {es : List UInt16} {e : UInt16}

@[simp] lemma desk_snoc (b : UInt8) :
    desk glyph shift p (raw ++ [b]) = (desk glyph shift p raw).byte glyph b := by
  simp [desk]

@[simp] lemma desk_editor : (desk glyph shift p raw).editor = editRaw shift raw := by
  induction raw using List.reverseRecOn with
  | nil => rfl
  | append_singleton raw b ih => rw [desk_snoc, editRaw_snoc, Desk.byte, ih]

@[simp] lemma draft_snoc :
    draft glyph p (es ++ [e]) = (draft glyph p es).entry glyph e := by
  simp [draft]

@[simp] lemma draft_line : (draft glyph p es).line = editAll es := by
  induction es using List.reverseRecOn with
  | nil => rfl
  | append_singleton es e ih => rw [draft_snoc, editAll_snoc, Draft.entry, ih]

@[simp] lemma echo_same (line : List UInt8) : echo glyph p line line = p := by simp [echo]

lemma echo_char (line : List UInt8) (c : UInt8) :
    echo glyph p line (line ++ [c]) = TextPage.puts glyph p [c] := by simp [echo]

lemma echo_dropLast {line : List UInt8} (h : line ≠ []) :
    echo glyph p line line.dropLast = TextPage.puts glyph p [8] := by
  have := List.length_pos_of_ne_nil h
  rw [echo, if_neg (by simp), if_pos (by simp; omega)]

variable {around : ℤ → ℕ} {blinkTime : ℕ} {keys : Keys} {buffer : ℕ → UInt8} {m : Machine}
variable {s s' : KeyboardRing.State} {l l' l₀ : Line} {t₀ : Terminal} {events : List Event}

/-- The echo of an entry. -/
lemma presents_handle (hh : Holds l (draft (fontAt around) p es).line)
    (hp : Presents t₀ l.machine (draft (fontAt around) p es).page) (h10 : key e ≠ 10)
    (hroom : (edit (editAll es) e).length ≤ commandSize)
    (hl : l.handle around true commandSize e = some l') :
    Presents t₀ l'.machine (draft (fontAt around) p (es ++ [e])).page := by
  rw [draft_line] at hh
  simp only [draft_snoc, Draft.entry, draft_line]
  have hlen := hh.len
  unfold Line.handle at hl
  unfold edit at hroom ⊢
  split_ifs at hl with h8 hacc
  · -- a backspace
    rw [if_pos h8]
    unfold Line.rubout at hl
    split_ifs at hl with h0
    · obtain ⟨m', hm, rfl⟩ := Option.map_eq_some_iff.mp hl
      obtain ⟨m₁, h₁, hp'⟩ := presents_echoed around hp (c := 8) (by decide)
      obtain rfl := Option.some.inj (hm.symm.trans h₁)
      rwa [echo_dropLast fun hnil => h0 (by rw [hlen, hnil]; rfl)]
    · cases hl
      have hnil : editAll es = [] := List.length_eq_zero_iff.mp (by omega)
      rw [hnil, List.dropLast_nil, echo_same]
      exact hp
  · -- a character
    rw [if_neg h8, if_pos hacc.1, echo_char]
    obtain ⟨m', hm, rfl⟩ := Option.map_eq_some_iff.mp hl
    have hc : (l.store (charOf e)).buffer (l.store (charOf e)).len = charOf e :=
      Function.update_self _ _ _
    rw [hc] at hm
    obtain ⟨m₁, h₁, hp'⟩ := presents_echoed around hp (char_of_key hacc.1 h10 h8).1
    obtain rfl := Option.some.inj (hm.symm.trans h₁)
    exact hp'
  · -- a key without a character
    have h0 : ¬ key e ≠ 0 := fun h0 => hacc ⟨h0, by
      rw [if_neg h8, if_pos h0, List.length_append, List.length_singleton] at hroom
      omega⟩
    cases hl
    rw [if_neg h8, if_neg h0, echo_same]
    exact hp

/-- The echo of a line. -/
lemma presents_run (hh : Holds l₀ []) (hp : Presents t₀ l₀.machine p)
    (h10 : ∀ e ∈ entries events, key e ≠ 10)
    (hroom : ∀ pre, pre <+: entries events → (editAll pre).length ≤ commandSize)
    (hl : l₀.run around true commandSize events = some l) :
    Presents t₀ l.machine (draft (fontAt around) p (entries events)).page := by
  induction events using List.reverseRecOn generalizing l with
  | nil => cases hl; exact hp
  | append_singleton events ev ih =>
    obtain ⟨l₁, h₁, hl⟩ := run_snoc_inv hl
    rw [entries_append] at h10 hroom ⊢
    have hroom₁ := fun pre hp => hroom pre (List.IsPrefix.trans hp (List.prefix_append _ _))
    have ih := ih (fun e he => h10 e (List.mem_append_left _ he)) hroom₁ h₁
    cases ev with
    | entry e =>
      have hsnoc : entries [.entry e] = [e] := rfl
      rw [hsnoc] at h10 hroom ⊢
      have hlast := hroom _ (List.prefix_refl _)
      rw [editAll_snoc] at hlast
      refine presents_handle ?_ ih (h10 e (by simp)) hlast hl
      rw [draft_line]
      exact holds_run hh (by decide) hroom₁ h₁
    | blink shown =>
      obtain ⟨m, hm, rfl⟩ := Option.map_eq_some_iff.mp hl
      obtain ⟨m₁, hm₁, hp'⟩ := presents_blink ih shown
      obtain rfl := Option.some.inj (hm.symm.trans hm₁)
      have hnil : entries [.blink shown] = [] := rfl
      rwa [hnil, List.append_nil]

/-! ### The log of the keyboard -/

/-- The log of the driver gives the page of the bytes. -/
lemma draft_fed (hk : Flags keys)
    (run : Fed around true commandSize blinkTime (start keys buffer m) raw s) (h : 0x1C ∉ raw) :
    (draft glyph p s.past.logged).page = (desk glyph (shifted keys) p raw).page := by
  induction run with
  | refl => rfl
  | next _ hs ih =>
    rw [(next_keeps hs).2.2]
    exact ih h
  | @interrupt raw s run b _ ih =>
    have h' : 0x1C ∉ raw := fun hm => h (List.mem_append_left _ hm)
    obtain ⟨hflags, hheld, hline, -, -⟩ := logs_fed hk run h'
    obtain ⟨-, hbyte⟩ := processScancode_editor hflags (editRaw (shifted keys) raw).line b
    have heditor : (editRaw (shifted keys) raw).byte b =
        Editor.byte ⟨shifted s.keys, (editRaw (shifted keys) raw).line⟩ b := by rw [hheld]
    simp only [desk_snoc, Desk.byte, desk_editor, ← ih h', heditor, hbyte,
      KeyboardRing.State.interrupt]
    split_ifs
    · rw [draft_snoc, Draft.entry, draft_line, hline]
    · rw [echo_same]

/-- The state that the first Enter interrupts. -/
lemma enter_fed (hk : Flags keys) {typed rest : List UInt8} (h : 0x1C ∉ typed)
    (run : Fed around true commandSize blinkTime (start keys buffer m) (typed ++ 0x1C :: rest) s) :
    ∃ s₁ e, Fed around true commandSize blinkTime (start keys buffer m) typed s₁ ∧ key e = 10 ∧
      s₁.past.logged ++ [e] <+: s.past.logged := by
  generalize hraw : typed ++ 0x1C :: rest = raw at run
  induction run generalizing rest with
  | refl => simp at hraw
  | next _ hs ih =>
    rw [(next_keeps hs).2.2]
    exact ih hraw
  | @interrupt raw s run b _ ih =>
    rcases List.eq_nil_or_concat' rest with rfl | ⟨rest, b', rfl⟩
    · obtain ⟨rfl, hb⟩ := List.append_inj' hraw rfl
      obtain rfl := (List.cons.inj hb).1
      refine ⟨s, s.keys.entry 0x1C, run, ?_, List.prefix_refl _⟩
      rw [key_entry (logs_fed hk run h).flags]
      rfl
    · rw [← List.cons_append, ← List.append_assoc] at hraw
      obtain ⟨hraw, -⟩ := List.append_inj' hraw rfl
      obtain ⟨s₁, e, hf, he, hp⟩ := ih hraw
      refine ⟨s₁, e, hf, he, hp.trans ?_⟩
      simp only [KeyboardRing.State.interrupt]
      split_ifs
      · exact List.prefix_append _ _
      · exact List.prefix_refl _

/-- Two prefixes of one log up to its first Enter. -/
lemma first_enter {es es' logged : List UInt16} {e e' : UInt16} (h : es ++ [e] <+: logged)
    (h' : es' ++ [e'] <+: logged) (he : key e = 10) (he' : key e' = 10)
    (hes : ∀ e ∈ es, key e ≠ 10) (hes' : ∀ e ∈ es', key e ≠ 10) : es = es' := by
  rcases List.prefix_or_prefix_of_prefix h h' with hp | hp
  · rcases List.prefix_concat_iff.mp hp with heq | hp
    · exact (List.append_inj' heq rfl).1
    · exact absurd he (hes' e (hp.subset (by simp)))
  · rcases List.prefix_concat_iff.mp hp with heq | hp
    · exact (List.append_inj' heq rfl).1.symm
    · exact absurd he' (hes e' (hp.subset (by simp)))

/-- What stands in the log before Enter is the line of some of the bytes. -/
lemma line_fed (hk : Flags keys)
    (run : Fed around true commandSize blinkTime (start keys buffer m) raw s)
    (hp : es <+: s.past.logged) (h : ∀ e ∈ es, key e ≠ 10) :
    ∃ pre, pre <+: raw ∧ 0x1C ∉ pre ∧ editAll es = (editRaw (shifted keys) pre).line := by
  by_cases henter : 0x1C ∈ raw
  · obtain ⟨typed, rest, rfl, hfirst⟩ := List.eq_append_cons_of_mem henter
    obtain ⟨s₁, e, run₁, he, hp₁⟩ := enter_fed hk hfirst run
    have hes : es <+: s₁.past.logged := by
      rcases List.prefix_or_prefix_of_prefix hp hp₁ with hp | hp
      · refine (List.prefix_concat_iff.mp hp).resolve_left fun heq => h e ?_ he
        rw [heq]
        simp
      · exact absurd he (h e (hp.subset (by simp)))
    obtain ⟨pre, hpre, heq⟩ := (logs_fed hk run₁ hfirst).lines es hes
    exact ⟨pre, hpre.trans (List.prefix_append _ _), fun hm => hfirst (hpre.subset hm), heq⟩
  · obtain ⟨pre, hpre, heq⟩ := (logs_fed hk run henter).lines es hp
    exact ⟨pre, hpre, fun hm => henter (hpre.subset hm), heq⟩

/-- The characters of a line can be typed. -/
lemma typeable_editRaw (h : 0x1C ∉ raw) : ∀ c ∈ (editRaw shift raw).line, Typeable c := by
  induction raw using List.reverseRecOn with
  | nil => intro c hc; cases hc
  | append_singleton raw b ih =>
    simp only [List.mem_append, List.mem_singleton, not_or] at h
    have ih := ih h.1
    have hb := byte_forall (fun b => b ≠ 0x1C → kbdus b ≠ 0 → kbdus b ≠ 8 →
      Typeable (kbdus b) ∧ Typeable (shiftKbdus b)) (by unfold Typeable; decide +kernel) b
      (Ne.symm h.2)
    rw [editRaw_snoc]
    unfold Editor.byte
    split_ifs with _ _ _ h0 h8 hs
    · exact ih
    · exact ih
    · exact ih
    · exact ih
    · exact fun c hc => ih c (List.mem_of_mem_dropLast hc)
    all_goals
      intro c hc
      rcases List.mem_append.mp hc with hc | hc
      · exact ih c hc
      · rw [List.mem_singleton.mp hc]
        first | exact (hb h0 h8).2 | exact (hb h0 h8).1

/-! ### Room -/

/-- The line has room in the buffer at all times up to the first Enter. -/
def Room (shift : Bool) (raw : List UInt8) : Prop :=
  ∀ pre, pre <+: raw → 0x1C ∉ pre → (editRaw shift pre).line.length ≤ maxLine

instance (shift : Bool) (raw : List UInt8) : Decidable (Room shift raw) :=
  decidable_of_iff (∀ pre ∈ raw.inits, 0x1C ∉ pre → (editRaw shift pre).line.length ≤ maxLine)
    ⟨fun h pre hp => h pre (List.mem_inits _ _ |>.mpr hp),
      fun h pre hp => h pre (List.mem_inits _ _ |>.mp hp)⟩

lemma Room.of_prefix {raw' : List UInt8} (h : Room shift raw) (hp : raw' <+: raw) :
    Room shift raw' := fun pre hpre => h pre (hpre.trans hp)

lemma Room.enter (h : Room shift raw) (rest : List UInt8) : Room shift (raw ++ 0x1C :: rest) := by
  refine fun pre hp hpre => h pre ?_ hpre
  rcases List.prefix_or_prefix_of_prefix hp (List.prefix_append raw (0x1C :: rest)) with hp' | hp'
  · exact hp'
  · -- a byte behind `raw` would be the Enter
    obtain ⟨tail, rfl⟩ := hp'
    cases tail with
    | nil => simp
    | cons b tail =>
      obtain ⟨tail', heq⟩ := hp
      rw [List.append_assoc, List.cons_append] at heq
      obtain rfl : b = 0x1C := (List.cons.inj (List.append_cancel_left heq)).1
      simp at hpre

lemma room_log (hk : Flags keys) (hroom : Room (shifted keys) raw)
    (run : Fed around true commandSize blinkTime (start keys buffer m) raw s)
    (hp : es <+: s.past.logged) (h : ∀ e ∈ es, key e ≠ 10) : (editAll es).length ≤ maxLine := by
  obtain ⟨pre, hpre, hfirst, heq⟩ := line_fed hk run hp h
  rw [heq]
  exact hroom pre hpre hfirst

/-- The line fits wherever the program stands. -/
lemma pending_fed (hk : Flags keys) (hroom : Room (shifted keys) raw)
    (run : Fed around true commandSize blinkTime (start keys buffer m) raw s) :
    pending s < commandSize := by
  have hr := fed_reaches run
  obtain ⟨events, l, hrun, h10, hst⟩ := run_follows keys buffer m hr
  have hle := (inv_reaches (inv_start keys buffer m) hr).handled_le
  -- the entries before Enter
  have fits : ∀ es, es <+: s.past.handled → (∀ e ∈ es, key e ≠ 10) →
      (editAll es).length ≤ maxLine := fun es hp => room_log hk hroom run (hp.trans hle)
  have holds : entries events <+: s.past.handled → Holds l (editAll (entries events)) := fun hp =>
    holds_run (holds_empty buffer m) (by decide) (fun pre hpre =>
      (fits pre (hpre.trans hp) fun e he => h10 e (hpre.subset he)).trans (by decide)) hrun
  have hmax : maxLine < commandSize := by decide
  rcases hst with ⟨hb, hl, hh⟩ | ⟨e, hm, hh⟩
  · have hp : entries events <+: s.past.handled := hh ▸ List.prefix_refl _
    have hne : s.pc ≠ .grow := fun hpc => by rw [hpc] at hb; exact hb
    rw [pending, if_neg hne, hl, (holds hp).len]
    exact (fits _ hp h10).trans_lt hmax
  · have hp : entries events <+: s.past.handled := hh ▸ List.prefix_append _ _
    have hlen := (holds hp).len
    have hfit := fits _ hp h10
    -- the entry that is being handled, if it is not Enter
    have hlast : key e ≠ 10 → (edit (editAll (entries events)) e).length ≤ maxLine := fun he => by
      rw [← editAll_snoc]
      refine fits _ (hh ▸ List.prefix_refl _) fun e' he' => ?_
      rcases List.mem_append.mp he' with he' | he'
      · exact h10 e' he'
      · rwa [List.mem_singleton.mp he']
    cases hpc : s.pc with
    | grow =>
      rw [hpc] at hm
      obtain ⟨hl, he, h8, hacc⟩ := hm
      have h1 := hlast he
      rw [edit, if_neg h8, if_pos hacc.1, List.length_append, List.length_singleton] at h1
      rw [pending, if_pos hpc, hl]
      simp only [Line.store]
      omega
    | next =>
      rw [hpc] at hm
      have hlast := hlast hm.2
      have hh' := (holds hp).handle (by decide) (hlast.trans (by decide)) hm.1
      rw [pending, if_neg (by simp [hpc]), hh'.len]
      omega
    | done =>
      rw [hpc] at hm
      obtain ⟨m', -, hl⟩ := Option.map_eq_some_iff.mp hm.1
      rw [pending, if_neg (by simp [hpc]), ← hl]
      simp only
      omega
    | erase | rubout | mapped | shifted | store | exit =>
      rw [hpc] at hm
      rw [pending, if_neg (by simp [hpc]), hm.1]
      omega
    | _ => rw [hpc] at hm; exact hm.elim

/-! ### The shell -/

variable {romdisk : ℕ → UInt8} {k k₁ : Kernel}

/-- The bytes come in while the shell reads a line. -/
lemma reaches_fed (hk : Flags keys) (hroom : Room (shifted keys) raw)
    (run : Fed around true commandSize blinkTime (start keys buffer m) raw s) :
    Shell.Reaches around blinkTime romdisk (.typing (start keys buffer m) k) (.typing s k) := by
  induction run with
  | refl => exact .refl
  | next run hs ih =>
    exact .tail (ih hroom) (.next (.type hs (pending_fed hk hroom (.next run hs))))
  | @interrupt raw s run b bound ih =>
    exact .tail (ih (hroom.of_prefix (List.prefix_append _ _)))
      (.interrupt (s := .typing s k) b bound)

/-- The shell goes on to read its line by itself. -/
lemma goes_runs (hk : Flags keys) (hroom : Room (shifted keys) raw)
    (run : Fed around true commandSize blinkTime (start keys buffer m) raw s)
    (h : Runs (fun s => s.next around true commandSize blinkTime) s s') :
    Goes around blinkTime romdisk (.typing s k) (.typing s' k) := by
  suffices hg : Goes around blinkTime romdisk (.typing s k) (.typing s' k) ∧
      Fed around true commandSize blinkTime (start keys buffer m) raw s' from hg.1
  induction h with
  | refl => exact ⟨.refl, run⟩
  | tail _ hs ih =>
    obtain ⟨hg, hf⟩ := ih
    have hf' := hf.next hs
    exact ⟨hg.tail (.type hs (pending_fed hk hroom hf')), hf'⟩

/-- With an Enter in the log, another entry is still to come between two entries. -/
lemma between_enter (hi : KeyboardRing.Inv s)
    (hf : Follows around true commandSize l₀ s events l) (he : e ∈ s.past.logged)
    (h10 : key e = 10) (hb : Pc.Between s.pc) (hpc : s.pc ≠ .enter) :
    s.past.taken < s.past.logged.length := by
  rcases hf.stands with ⟨-, -, hh⟩ | ⟨e', hm, -⟩
  · refine Nat.lt_of_le_of_ne hi.ring.taken fun hall => ?_
    have hp := hi.place.handled
    rw [if_neg hpc, hall, List.take_length, hh] at hp
    exact hf.typed e (hp ▸ he) h10
  · cases hq : s.pc <;> rw [hq] at hb hm <;> first | exact hb.elim | exact hm.elim

/-- With an Enter among the bytes, `kgetline` comes back. -/
lemma returns_fed (hk : Flags keys) (hd : Draws m) {typed rest : List UInt8} (h : 0x1C ∉ typed)
    (run : Fed around true commandSize blinkTime (start keys buffer m) (typed ++ 0x1C :: rest) s) :
    ∃ s', Runs (fun s => s.next around true commandSize blinkTime) s s' ∧
      Fed around true commandSize blinkTime (start keys buffer m) (typed ++ 0x1C :: rest) s' ∧
      s'.pc = .done := by
  refine Runs.of_measure _ (fun s => s.pc = .done) ahead (fun s run hdone => ?_) run
  have hr := fed_reaches run
  have hi := inv_reaches (inv_start keys buffer m) hr
  obtain ⟨events, l, hf⟩ := run_follows keys buffer m hr
  obtain ⟨s₁, e, -, he, hp⟩ := enter_fed hk h run
  obtain ⟨s', hs, -⟩ := next_some around true commandSize blinkTime (draws_fed hd run)
    (grow_char hr) hdone
  exact ⟨s', hs, run.next hs, next_ahead hi (between_enter hi hf (hp.subset (by simp)) he) hs⟩

/-- What `kgetline` comes back with. -/
lemma done_fed (hk : Flags keys) (hp : Presents t₀ m p) {typed rest : List UInt8}
    (h : 0x1C ∉ typed) (hroom : Room (shifted keys) (typed ++ 0x1C :: rest))
    (run : Fed around true commandSize blinkTime (start keys buffer m) (typed ++ 0x1C :: rest) s)
    (hdone : s.pc = .done) :
    IsString s.line.buffer 0 (editRaw (shifted keys) typed).line ∧
      Presents t₀ s.line.machine (TextPage.puts (fontAt around)
        (desk (fontAt around) (shifted keys) p typed).page [10]) := by
  have hr := fed_reaches run
  obtain ⟨events, e', l, hh, h10, he', hrun, hfin⟩ := done_line keys buffer m hr hdone
  obtain ⟨s₁, e, run₁, he, hp₁⟩ := enter_fed hk h run
  have hlogs := logs_fed hk run₁ h
  have hle : entries events ++ [e'] <+: s.past.logged :=
    hh ▸ (inv_reaches (inv_start keys buffer m) hr).handled_le
  have hes : entries events = s₁.past.logged := first_enter hle hp₁ he' he h10 hlogs.keys
  have hfits : ∀ pre, pre <+: entries events → (editAll pre).length ≤ commandSize := fun pre hp =>
    (room_log hk hroom run (hp.trans ((List.prefix_append _ _).trans hle))
      fun e he => h10 e (hp.subset he)).trans (by decide)
  obtain ⟨hlen, hst⟩ := holds_run (holds_empty buffer m) (by decide) hfits hrun
  have hp : Presents t₀ (⟨0, buffer, m⟩ : Line).machine p := hp
  have hpr := presents_run (holds_empty buffer m) hp h10 hfits hrun
  rw [hes, draft_fed hk run₁ h] at hpr
  rw [hes, hlogs.line] at hlen hst
  obtain ⟨m', hm, hl⟩ := Option.map_eq_some_iff.mp hfin
  obtain ⟨m₁, h₁, hp'⟩ := presents_act around (a := .echo false [10]) hpr
    (by simp [Action.Text, IsText])
  obtain rfl : m' = m₁ := Option.some.inj (hm.symm.trans h₁)
  rw [← hl]
  refine ⟨⟨fun i hi => ?_, fun c hc => ?_, ?_⟩, hp'⟩
  · rw [← hst i hi]
    exact Function.update_of_ne (by omega) _ _
  · exact (typeable_editRaw h c hc).1
  · simp only [Nat.zero_add, ← hlen]
    exact Function.update_self _ _ _

/-- The flags of the driver, in every run of the shell. -/
lemma flags_step {s s' : Shell.State} (h : Flags s.keys)
    (hs : Shell.Step around blinkTime romdisk s s') : Flags s'.keys := by
  cases hs with
  | next hs =>
    cases hs with
    | ask => exact ⟨h.shift, h.ctrl⟩
    | type hs =>
      obtain ⟨hshift, hctrl, -⟩ := next_keeps hs
      exact ⟨by rw [Shell.State.keys, hshift]; exact h.shift,
        by rw [Shell.State.keys, hctrl]; exact h.ctrl⟩
    | _ => exact h
  | interrupt b =>
    cases s with
    | _ => exact h.byte b

lemma flags_reaches {s : Shell.State}
    (run : Shell.Reaches around blinkTime romdisk (.prompt bootKeys k) s) : Flags s.keys :=
  kept (P := fun s => Flags s.keys) (fun _ _ => flags_step) ⟨Or.inl rfl, Or.inl rfl⟩ run

/-- The flags when a line is begun. -/
lemma flags_fresh (run : Shell.Reaches around blinkTime romdisk (.prompt bootKeys k)
    (.typing (start keys buffer m) k₁)) : Flags keys := by
  have h : Flags (start keys buffer m).keys := flags_reaches run
  exact ⟨h.shift, h.ctrl⟩

variable {fs : List UInt8 → Option (List UInt8)} {files : List PackedFile} {typed rest : List UInt8}

/-- The shell goes on to the entered line by itself, from wherever it is in the line. -/
lemma goes_entered (hd : Bootable fs files romdisk) (hk : Flags keys)
    (hm : Matches around blinkTime t₀ (.typing (start keys buffer m) k) ⟨p, .typing []⟩)
    (h : 0x1C ∉ typed) (hroom : Room (shifted keys) typed)
    (proper : Proper (editRaw (shifted keys) typed).line)
    (run : Fed around true commandSize blinkTime (start keys buffer m) (typed ++ 0x1C :: rest) s) :
    ∃ keys' command k', Goes around blinkTime romdisk (.typing s k) (.entered keys' command k') ∧
      Matches around blinkTime t₀ (.entered keys' command k') ⟨TextPage.puts (fontAt around)
        (desk (fontAt around) (shifted keys) p typed).page [10],
        .entered (editRaw (shifted keys) typed).line⟩ := by
  have hroom := hroom.enter rest
  have hp : Presents t₀ m p := hm.presents
  obtain ⟨hr, hc⟩ := hp.good.fits
  obtain ⟨s', hruns, run', hdone⟩ := returns_fed hk ⟨hp.sound, by omega, by omega⟩ h run
  have hgoes : Goes around blinkTime romdisk (.typing s k) (.typing s' k) :=
    goes_runs hk hroom run hruns
  obtain ⟨hs, hpr⟩ := done_fed hk hp h hroom run' hdone
  obtain ⟨c, -, hm'⟩ := (simulates hd t₀).run hm (reaches_fed (k := k) hk hroom run')
  have heap : k.mallocStart = defaultMallocLocation := by
    cases hm with
    | typing _ heap => exact heap
  refine ⟨_, _, _, hgoes.tail (.enter hdone hs proper), ?_⟩
  cases hm' with
  | typing _ _ _ hne => exact absurd hdone hne
  | done _ _ hpend _ =>
    obtain ⟨hs', hlen⟩ := hpend.isString hdone
    rw [← hs.unique hs'] at hlen
    exact .entered hpr heap hs hlen (fun _ => hpend.strlen) proper

/-- An entered line is answered. -/
lemma matches_behind (hd : Bootable fs files romdisk) {command : ℕ → UInt8} {line : List UInt8}
    (hm : Matches around blinkTime t₀ (.entered keys command k) ⟨p, .entered line⟩)
    (filesize : ℕ → UInt8) : ∃ o, handleCommand around romdisk filesize command k = some o ∧
      Matches around blinkTime t₀ (behind keys o) (answer files (fontAt around) p line) := by
  cases hm with
  | entered hpr heap hs hlen hz proper => exact matches_answer hd keys hpr heap hs hlen hz proper

lemma goes_behind {command filesize : ℕ → UInt8} {o : Outcome}
    (h : handleCommand around romdisk filesize command k = some o) :
    Next around blinkTime romdisk (.entered keys command k) (behind keys o) := by
  cases o with
  | back k' => exact .back filesize h
  | enters entry k' resume => exact .launch filesize h

/-- A line that has just been begun is empty. -/
lemma matches_fresh {c : Session}
    (hm : Matches around blinkTime t₀ (.typing (start keys buffer m) k) c) :
    c.mode = .typing [] := by
  cases hm with
  | typing _ _ hs =>
    rw [List.length_eq_zero_iff.mp hs.holds.len.symm]
  | done _ _ _ hpc => cases hpc

variable {k₀ : Kernel}

/-! ### From the first prompt -/

/-- Bytes that all come in before the program takes a step. -/
lemma fed_all (keys : Keys) (buffer : ℕ → UInt8) (m : Machine) (h : raw.length ≤ 255) :
    ∃ s, Fed around true commandSize blinkTime (start keys buffer m) raw s ∧
      s.past.logged.length ≤ raw.length ∧ s.past.taken = 0 := by
  induction raw using List.reverseRecOn with
  | nil => exact ⟨_, .refl, Nat.le_refl _, rfl⟩
  | append_singleton raw b ih =>
    rw [List.length_append, List.length_singleton] at h
    obtain ⟨s, run, hlen, ht⟩ := ih (by omega)
    have hlogged : (s.interrupt b).past.logged.length ≤ raw.length + 1 := by
      simp only [KeyboardRing.State.interrupt]
      split_ifs
      · rw [List.length_append, List.length_singleton]
        omega
      · omega
    refine ⟨_, run.interrupt b ?_, by rwa [List.length_append], ht⟩
    show (s.interrupt b).past.logged.length ≤ s.past.taken + 255
    omega

variable (blinkTime) in
/-- The first prompt is printed, and a line begun. -/
lemma asks (hd : Bootable fs files romdisk) (hk : Started around romdisk k₀ k) :
    ∃ command k₁, Shell.Reaches around blinkTime romdisk (.prompt bootKeys k)
      (.typing (start bootKeys command k₁.machine) k₁) := by
  have hm : Matches around blinkTime k₀.term (.prompt bootKeys k) _ := matches_start hd hk
  have hp := hm.presents
  obtain ⟨k₁, h₁, -⟩ := printed_kputs around hp (show IsText [62] by simp [IsText])
  exact ⟨_, k₁, .single (.next (.ask (fun _ => 0) h₁))⟩

/-- Every proper line can be entered. -/
lemma enters_line (hd : Bootable fs files romdisk) (hk : Started around romdisk k₀ k)
    (h : 0x1C ∉ typed) (hlen : typed.length < 255) (hroom : Room false typed)
    (proper : Proper (editRaw false typed).line) :
    ∃ keys command k₁ p, Shell.Reaches around blinkTime romdisk (.prompt bootKeys k)
      (.entered keys command k₁) ∧ Matches around blinkTime k₀.term (.entered keys command k₁)
        ⟨p, .entered (editRaw false typed).line⟩ := by
  obtain ⟨command, k₁, run⟩ := asks blinkTime hd hk
  obtain ⟨⟨p, mode⟩, -, hm⟩ := run_matches hd hk run
  obtain rfl : mode = .typing [] := matches_fresh hm
  have hflags : Flags bootKeys := ⟨Or.inl rfl, Or.inl rfl⟩
  have hall : (typed ++ [0x1C]).length ≤ 255 := by
    rw [List.length_append, List.length_singleton]
    omega
  obtain ⟨s, fed, -⟩ := fed_all bootKeys command k₁.machine hall
  obtain ⟨keys', command', k', hgoes, hent⟩ := goes_entered hd hflags hm h hroom proper fed
  exact ⟨keys', command', k', _,
    (run.trans (reaches_fed hflags (hroom.enter []) fed)).trans hgoes.reaches, hent⟩

variable (around blinkTime)

/-- **What is typed is answered.** In any run, and whatever the moments at which the bytes have
come in, the shell goes on by itself from a line with an Enter to the answer that the console
gives to the line of the reference editor, behind its echo. What comes in behind Enter is
lost. -/
theorem line_answered (hd : Bootable fs files romdisk) (hk : Started around romdisk k₀ k)
    (run : Shell.Reaches around blinkTime romdisk (.prompt bootKeys k)
      (.typing (start keys buffer m) k₁)) :
    ∃ p, Console.Reaches files (fontAt around) ⟨firstPage around files, .prompt⟩ ⟨p, .typing []⟩ ∧
      ∀ typed rest s, 0x1C ∉ typed → Room (shifted keys) typed →
        Proper (editRaw (shifted keys) typed).line →
        Fed around true commandSize blinkTime (start keys buffer m) (typed ++ 0x1C :: rest) s →
        ∃ s', Goes around blinkTime romdisk (.typing s k₁) s' ∧
          Matches around blinkTime k₀.term s' (answer files (fontAt around)
            (TextPage.puts (fontAt around) (desk (fontAt around) (shifted keys) p typed).page [10])
            (editRaw (shifted keys) typed).line) := by
  obtain ⟨⟨p, mode⟩, hreach, hm⟩ := run_matches hd hk run
  obtain rfl : mode = .typing [] := matches_fresh hm
  refine ⟨p, hreach, fun typed rest s h hroom proper fed => ?_⟩
  obtain ⟨keys', command, k', hgoes, hent⟩ :=
    goes_entered hd (flags_fresh run) hm h hroom proper fed
  obtain ⟨o, ho, hans⟩ := matches_behind hd hent fun _ => 0
  exact ⟨_, hgoes.tail (goes_behind ho), hans⟩

/-- `RUN` and Enter, and more bytes than the shell has asked for. -/
theorem line_answered_run : ∃ romdisk k₁ s s' p f,
    Goes (fun _ => 0) 500000 romdisk (.typing s k₁) s' ∧ f ∈ programAndText ∧
    ∃ t₀, Matches (fun _ => 0) 500000 t₀ s'
      ⟨p, .running f [ascii "RUN"] defaultMallocLocation⟩ := by
  obtain ⟨romdisk, hd⟩ := bootable_programAndText
  obtain ⟨k₀, k, hk⟩ := started (fun _ => 0) hd (fun _ => 0) (fun _ => 0) fun _ => 0
  obtain ⟨command, k₁, run⟩ := asks 500000 hd hk
  obtain ⟨p, -, h⟩ := line_answered (fun _ => 0) 500000 hd hk run
  obtain ⟨s, fed, -⟩ := fed_all bootKeys command k₁.machine
    (show ([0x13, 0x16, 0x31] ++ 0x1C :: [0x1E] : List UInt8).length ≤ 255 by decide)
  obtain ⟨s', hgoes, hm⟩ := h _ _ s (by decide) (by decide) (by decide) fed
  exact ⟨romdisk, k₁, s, s', _, _, hgoes, List.mem_cons_self, k₀.term, hm⟩

end Mono98.ShellInput
