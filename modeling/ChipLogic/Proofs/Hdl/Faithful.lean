import ChipLogic.Proofs.Hdl.Lexemes

/-!
# Spans show where nodes stand

The span of a node reaches from its first token up to its last one, however broken the text around
it is. So in a file the name of a chip stands at the span of the name, a reference starts with its
name, the span of a node covers those of the nodes in it, and the nodes of a list follow each other
(`Document.Faithful`).

**Cursors** keep track of this by the offset up to which they have passed the text
(`Cursor.passed`). A cursor in a file (`Cursor.Sound`) has passed no byte of the tokens ahead of it.
To go on from one such cursor to another (`Cursor.Reaches`) either passes nothing or leaves a token
behind that was ahead before. Rules go on like this, and so does the recovery, and a node that is
read on the way lies in what was passed (`Rule.Stands`, `Spanned`). Lists of nodes therefore lie in
a row between two offsets (`Row`), and rows are put together where one ends and the next begins.

**Theorem (`faithful_parse`).** The spans in the document of a file are faithful to it.
-/

namespace ChipLogic

/-! ## Spans -/

namespace Span

/-- One span lies inside another one. -/
structure Covers (s t : Span) : Prop where
  file : t.file = s.file
  start : s.start ≤ t.start
  stop : t.stop ≤ s.stop

/-- The smallest stretch of a file around two spans in it. -/
structure IsHull (s a b : Span) : Prop where
  left : a.file = s.file
  right : b.file = s.file
  start : s.start = min a.start b.start
  stop : s.stop = max a.stop b.stop

/-- The spans are stretches of one file that follow each other without a byte in common. -/
def InOrder (spans : List Span) : Prop :=
  (∀ s ∈ spans, s.start < s.stop) ∧ spans.Pairwise fun s t => s.file = t.file ∧ s.stop ≤ t.start

end Span

namespace Hdl

/-! ## Faithful trees -/

structure RefNode.Faithful (b : SourceBook) (r : RefNode) : Prop where
  name : ∃ after, b.snippet? r.span = some (r.name ++ after)
  range : ∀ range, r.range = some range → r.span.Covers range.span

structure BindingNode.Faithful (b : SourceBook) (n : BindingNode) : Prop where
  inner : n.inner.Faithful b
  outer : n.outer.Faithful b
  span : n.span.IsHull n.inner.span n.outer.span

structure PartNode.Faithful (b : SourceBook) (p : PartNode) : Prop where
  bindings : ∀ n ∈ p.bindings, n.Faithful b ∧ p.span.Covers n.span
  order : Span.InOrder (p.bindings.map (·.span))

structure ChipNode.Faithful (b : SourceBook) (c : ChipNode) : Prop where
  name : b.snippet? c.nameSpan = some c.name
  nameSpan : c.span.Covers c.nameSpan
  inputs : ∀ p ∈ c.inputs, c.span.Covers p.span
  outputs : ∀ p ∈ c.outputs, c.span.Covers p.span
  parts : ∀ p ∈ c.parts, p.Faithful b ∧ c.span.Covers p.span
  inputOrder : Span.InOrder (c.inputs.map (·.span))
  outputOrder : Span.InOrder (c.outputs.map (·.span))
  partOrder : Span.InOrder (c.parts.map (·.span))

/-- The spans of the chips say where in the files they stand. -/
structure Document.Faithful (b : SourceBook) (d : Document) : Prop where
  chips : ∀ c ∈ d.chips, c.Faithful b
  order : Span.InOrder (d.chips.map (·.span))

/-! ## Rows -/

/-- Between two offsets of a file spans follow each other. -/
inductive Row (n : Nat) : Nat → List Span → Nat → Prop
  | nil {low high : Nat} (le : low ≤ high) : Row n low [] high
  | cons {low high : Nat} {s : Span} {ss : List Span} (file : s.file = some n)
      (start : low ≤ s.start) (solid : s.start < s.stop) (rest : Row n s.stop ss high) :
      Row n low (s :: ss) high

namespace Row

variable {n low mid high : Nat} {ss ts : List Span}

theorem le (h : Row n low ss high) : low ≤ high := by
  induction h with
  | nil le => exact le
  | cons file start solid rest ih => omega

theorem skip (h : Row n mid ss high) (hle : low ≤ mid) : Row n low ss high := by
  cases h with
  | nil le => exact .nil (Nat.le_trans hle le)
  | cons file start solid rest => exact .cons file (Nat.le_trans hle start) solid rest

theorem append (h : Row n low ss mid) (h' : Row n mid ts high) : Row n low (ss ++ ts) high := by
  induction h with
  | nil le => exact h'.skip le
  | cons file start solid rest ih => exact .cons file start solid (ih h')

theorem appendMap {α : Type} {f : α → Span} {xs ys : List α} (h : Row n low (xs.map f) mid)
    (h' : Row n mid (ys.map f) high) : Row n low ((xs ++ ys).map f) high := by
  rw [List.map_append]
  exact h.append h'

theorem extend (h : Row n low ss mid) (hle : mid ≤ high) : Row n low ss high := by
  have hrow := h.append (.nil hle)
  rwa [List.append_nil] at hrow

theorem mem (h : Row n low ss high) : ∀ s ∈ ss, s.file = some n ∧ low ≤ s.start ∧
    s.start < s.stop ∧ s.stop ≤ high := by
  induction h with
  | nil le => exact List.forall_mem_nil _
  | cons file start solid rest ih =>
    refine List.forall_mem_cons.2 ⟨⟨file, start, solid, rest.le⟩, fun s hs => ?_⟩
    obtain ⟨hfile, hlow, hsolid, hhigh⟩ := ih s hs
    exact ⟨hfile, by omega, hsolid, hhigh⟩

/-- What reaches over a row covers each span in it. -/
theorem covers {s : Span} (h : Row n low ss high) (hfile : s.file = some n) (hlow : s.start ≤ low)
    (hhigh : high ≤ s.stop) : ∀ t ∈ ss, s.Covers t := by
  intro t ht
  obtain ⟨htfile, hstart, -, hstop⟩ := h.mem t ht
  exact ⟨htfile.trans hfile.symm, Nat.le_trans hlow hstart, Nat.le_trans hstop hhigh⟩

theorem inOrder (h : Row n low ss high) : Span.InOrder ss := by
  refine ⟨fun s hs => (h.mem s hs).2.2.1, ?_⟩
  induction h with
  | nil le => exact .nil
  | cons file start solid rest ih =>
    refine .cons (fun t ht => ?_) ih
    obtain ⟨hfile, hlow, -, -⟩ := rest.mem t ht
    exact ⟨file.trans hfile.symm, hlow⟩

end Row

end Hdl

/-! ## Text between offsets -/

theorem cutAt_prefix {m k : Nat} (h : m ≤ k) (cs : List Char) :
    (cutAt m cs).1 <+: (cutAt k cs).1 := by
  induction cs generalizing m k with
  | nil => exact List.prefix_refl _
  | cons c cs ih =>
    by_cases hm : c.utf8Size ≤ m
    · simp only [cutAt, hm, Nat.le_trans hm h, if_true]
      exact (List.prefix_cons_inj c).2 (ih (Nat.sub_le_sub_right h _))
    · simp only [cutAt, hm, if_false]
      exact List.nil_prefix

/-- A longer stretch starts with the shorter one. -/
theorem SourceBook.snippet?_extend {b : SourceBook} {s t : Span} {text : String}
    (h : b.snippet? s = some text) (hfile : t.file = s.file) (hstart : t.start = s.start)
    (hstop : s.stop ≤ t.stop) : ∃ after, b.snippet? t = some (text ++ after) := by
  obtain ⟨f, hf, rfl⟩ := Option.map_eq_some_iff.1 h
  obtain ⟨after, hafter⟩ :=
    cutAt_prefix (Nat.sub_le_sub_right hstop s.start) (cutAt s.start f.text.toList).2
  refine ⟨String.ofList after, Option.map_eq_some_iff.2 ⟨f, ?_, ?_⟩⟩
  · rw [fileOf?, hfile]
    exact hf
  · rw [SourceFile.snippet, slice, hstart, ← hafter, String.ofList_append]
    rfl

namespace Hdl

/-! ## Cursors in a file -/

/-- The offset up to which the text was passed. -/
def Cursor.passed (c : Cursor) : Nat := (c.previous.map (·.stop)).getD 0

variable {b : SourceBook} {n : Nat}

/-- The tokens around a cursor stand in a file, and those ahead were not passed. -/
structure Cursor.Sound (b : SourceBook) (n : Nat) (c : Cursor) : Prop where
  previous : ∀ s, c.previous = some s → s.file = some n ∧ s.start < s.stop
  files : ∀ t ∈ c.rest, t.span.file = some n
  ahead : ∀ t ∈ c.rest, c.passed ≤ t.span.start
  order : c.rest.Pairwise fun t u => t.span.stop ≤ u.span.start
  texts : ∀ t ∈ c.rest, t.kind ≠ .endOfFile →
    t.span.start < t.span.stop ∧ b.snippet? t.span = some t.text

/-- One cursor in a file comes after another one. -/
structure Cursor.Reaches (b : SourceBook) (n : Nat) (c c' : Cursor) : Prop where
  sound : c'.Sound b n
  passed : c.passed ≤ c'.passed
  previous : c'.previous = c.previous ∨ ∃ s, c'.previous = some s ∧ c.passed ≤ s.start

namespace Cursor.Reaches

variable {c c₁ c' : Cursor}

theorem refl (h : c.Sound b n) : c.Reaches b n c := ⟨h, Nat.le_refl _, .inl rfl⟩

theorem trans (h : c.Reaches b n c₁) (h' : c₁.Reaches b n c') : c.Reaches b n c' where
  sound := h'.sound
  passed := Nat.le_trans h.passed h'.passed
  previous := by
    rcases h'.previous with he | ⟨s, he, hle⟩
    · rw [he]; exact h.previous
    · exact .inr ⟨s, he, Nat.le_trans h.passed hle⟩

/-- Stepping over a token. -/
theorem after {previous : Option Span} {t : Token} {rest : List Token}
    (h : Cursor.Sound b n ⟨previous, t :: rest⟩) (hk : t.kind ≠ .endOfFile) :
    Cursor.Reaches b n ⟨previous, t :: rest⟩ ⟨some t.span, rest⟩ := by
  obtain ⟨hbefore, horder⟩ := List.pairwise_cons.1 h.order
  have hahead := h.ahead t List.mem_cons_self
  have hsolid := (h.texts t List.mem_cons_self hk).1
  refine ⟨⟨?_, fun u hu => h.files u (List.mem_cons_of_mem _ hu), hbefore, horder,
    fun u hu => h.texts u (List.mem_cons_of_mem _ hu)⟩,
    Nat.le_trans hahead (Nat.le_of_lt hsolid), .inr ⟨t.span, rfl, hahead⟩⟩
  intro s hs
  obtain rfl : t.span = s := Option.some.inj hs
  exact ⟨h.files t List.mem_cons_self, hsolid⟩

theorem skipToSection (h : c.Sound b n) : c.Reaches b n c.skipToSection := by
  obtain ⟨previous, rest⟩ := c
  unfold Cursor.skipToSection
  dsimp only
  fun_induction Hdl.skipToSection previous rest with
  | case1 => exact refl h
  | case2 | case3 | case4 | case5 | case6 | case7 => exact refl h
  | case8 _ t _ hk => exact after h (by rw [hk]; decide)
  | case9 _ t _ hk _ _ _ _ _ _ ih =>
    have hafter := after h hk
    exact hafter.trans (ih hafter.sound)

theorem skipStatement (h : c.Sound b n) : c.Reaches b n c.skipStatement := by
  obtain ⟨previous, rest⟩ := c
  unfold Cursor.skipStatement
  dsimp only
  fun_induction Hdl.skipStatement previous rest with
  | case1 => exact refl h
  | case2 | case3 => exact refl h
  | case4 _ t _ hk => exact after h (by rw [hk]; decide)
  | case5 _ t _ hk _ _ ih =>
    have hafter := after h hk
    exact hafter.trans (ih hafter.sound)

theorem skipToChip (h : c.Sound b n) : c.Reaches b n c.skipToChip := by
  obtain ⟨previous, rest⟩ := c
  unfold Cursor.skipToChip
  dsimp only
  fun_induction Hdl.skipToChip previous rest with
  | case1 => exact refl h
  | case2 | case3 => exact refl h
  | case4 _ t _ hk _ ih =>
    have hafter := after h hk
    exact hafter.trans (ih hafter.sound)

end Cursor.Reaches

/-- A span that starts after one cursor and ends at what the other one has passed. -/
structure Spanned (n : Nat) (c : Cursor) (s : Span) (c' : Cursor) : Prop where
  file : s.file = some n
  start : c.passed ≤ s.start
  solid : s.start < s.stop
  stop : s.stop = c'.passed

/-- The token that was passed last. -/
structure Taken (n : Nat) (c : Cursor) (s : Span) (c' : Cursor) : Prop extends
    Spanned n c s c' where
  last : c'.previous = some s

theorem Spanned.row {c c' : Cursor} {s : Span} (h : Spanned n c s c') :
    Row n c.passed [s] c'.passed :=
  .cons h.file h.start h.solid (.nil (Nat.le_of_eq h.stop))

/-- A node from its first token to its last one. -/
structure Joined (n : Nat) (c : Cursor) (head s : Span) (c' : Cursor) : Prop extends
    Spanned n c s c' where
  first : s.start = head.start

theorem joined_merge {c c₁ c' : Cursor} {s t : Span} (hs : Spanned n c s c₁)
    (hfile : t.file = some n) (hstart : s.start ≤ t.start) (hle : s.stop ≤ t.stop)
    (hstop : t.stop = c'.passed) : Joined n c s (s.merge t) c' := by
  have hmerge : s.merge t = ⟨some n, s.start, c'.passed⟩ := by
    rw [Span.merge, if_neg (by simp [hs.file]), if_pos (hs.file.trans hfile.symm), hs.file,
      Nat.min_eq_left hstart, Nat.max_eq_right hle, hstop]
  rw [hmerge]
  exact ⟨⟨rfl, hs.start, Nat.lt_of_lt_of_le hs.solid (hstop ▸ hle), rfl⟩, rfl⟩

/-- A stretch merged with a later one. -/
theorem Spanned.merge {c c₁ c₂ c' : Cursor} {s t : Span} (hs : Spanned n c s c₁)
    (h : c₁.passed ≤ c₂.passed) (ht : Spanned n c₂ t c') : Joined n c s (s.merge t) c' := by
  have hbefore : s.stop ≤ t.start := hs.stop ▸ Nat.le_trans h ht.start
  have := hs.solid
  have := ht.solid
  exact joined_merge hs ht.file (by omega) (by omega) ht.stop

/-- A token merged with the last token before a later cursor. -/
theorem Taken.merge_previous {c c₁ c' : Cursor} {s : Span} (hs : Taken n c s c₁)
    (h : c₁.Reaches b n c') : Joined n c s (s.merge c'.previousSpan) c' := by
  obtain ⟨t, ht, hle⟩ : ∃ t, c'.previous = some t ∧ s.start ≤ t.start := by
    rcases h.previous with he | ⟨t, he, hle⟩
    · exact ⟨s, he.trans hs.last, Nat.le_refl _⟩
    · have := hs.solid
      have := hs.stop
      exact ⟨t, he, by omega⟩
  have hprevious : c'.previousSpan = t := by simp [Cursor.previousSpan, ht]
  have hpassed : t.stop = c'.passed := by simp [Cursor.passed, ht]
  rw [hprevious]
  exact joined_merge hs.toSpanned (h.sound.previous t ht).1 hle
    (by rw [hs.stop, hpassed]; exact h.passed) hpassed

theorem isHull_merge {s t : Span} (hs : s.file = some n) (ht : t.file = some n) :
    (s.merge t).IsHull s t := by
  have hmerge : s.merge t = ⟨s.file, min s.start t.start, max s.stop t.stop⟩ := by
    rw [Span.merge, if_neg (by simp [hs]), if_pos (hs.trans ht.symm)]
  rw [hmerge]
  exact ⟨rfl, ht.trans hs.symm, rfl, rfl⟩

/-- Any token but the end of the text is passed by stepping over it. -/
theorem Cursor.Sound.advance {c : Cursor} (h : c.Sound b n) (hk : c.kind ≠ .endOfFile) :
    c.Reaches b n c.advance ∧ Taken n c c.span c.advance ∧ b.snippet? c.span = some c.text := by
  obtain ⟨previous, rest⟩ := c
  cases rest with
  | nil => exact absurd rfl hk
  | cons t rest =>
    have hadvance : Cursor.advance ⟨previous, t :: rest⟩ = ⟨some t.span, rest⟩ := if_neg hk
    obtain ⟨hsolid, htext⟩ := h.texts t List.mem_cons_self hk
    have hspanned : Spanned n ⟨previous, t :: rest⟩ t.span ⟨some t.span, rest⟩ :=
      ⟨h.files t List.mem_cons_self, h.ahead t List.mem_cons_self, hsolid, rfl⟩
    rw [hadvance]
    exact ⟨.after h hk, ⟨hspanned, rfl⟩, htext⟩

/-! ## Rules -/

namespace Rule

variable {α β : Type} {Q : Cursor → α → Cursor → Prop} {R : Cursor → β → Cursor → Prop}

/-- A rule goes on in a file, also to its fault, and what it reads stands in the relation `Q` to the
cursors before and after it. -/
structure Stands (b : SourceBook) (n : Nat) (Q : Cursor → α → Cursor → Prop) (r : Rule α) :
    Prop where
  ok : ∀ {c a c'}, c.Sound b n → r c = .ok (a, c') → c.Reaches b n c' ∧ Q c a c'
  error : ∀ {c f}, c.Sound b n → r c = .error f → c.Reaches b n f.cursor

theorem Stands.pure {a : α} (h : ∀ c, Q c a c) : Stands b n Q (Pure.pure a : Rule α) where
  ok hc he := by
    obtain ⟨rfl, rfl⟩ := Prod.mk.inj (Except.ok.inj he)
    exact ⟨.refl hc, h _⟩
  error _ he := nomatch he

theorem Stands.bind {r : Rule α} {f : α → Rule β} (hr : Stands b n Q r)
    (hf : ∀ c a, Stands b n (fun c₁ y c' => c.Reaches b n c₁ → Q c a c₁ → R c y c') (f a)) :
    Stands b n R (r >>= f) where
  ok := by
    intro c y c' hc he
    obtain ⟨a, c₁, h₁, h₂⟩ := bind_eq_ok he
    obtain ⟨hreach, hq⟩ := hr.ok hc h₁
    obtain ⟨hreach', hy⟩ := (hf c a).ok hreach.sound h₂
    exact ⟨hreach.trans hreach', hy hreach hq⟩
  error := by
    intro c e hc he
    rw [bind_apply] at he
    split at he
    · next h₁ => cases he; exact hr.error hc h₁
    · next a c₁ h₁ =>
      have hreach := (hr.ok hc h₁).1
      exact hreach.trans ((hf c a).error hreach.sound he)

theorem Stands.mono {Q' : Cursor → α → Cursor → Prop} {r : Rule α} (hr : Stands b n Q r)
    (h : ∀ {c a c'}, Q c a c' → Q' c a c') : Stands b n Q' r where
  ok hc he := (hr.ok hc he).imp_right h
  error := hr.error

theorem Stands.token {kind : Kind} (hk : kind ≠ .endOfFile) :
    Stands b n (Taken n) (Rule.token kind) where
  ok := by
    intro c a c' hc he
    unfold Rule.token at he
    split at he
    · next hkind =>
      obtain ⟨rfl, rfl⟩ := Prod.mk.inj (Except.ok.inj he)
      obtain ⟨hreach, htaken, -⟩ := hc.advance (hkind ▸ hk)
      exact ⟨hreach, htaken⟩
    · cases he
  error := by
    intro c f hc he
    unfold Rule.token at he
    split at he
    · cases he
    · cases he; exact .refl hc

theorem Stands.name : Stands b n (fun c a c' => Taken n c a.2 c' ∧ b.snippet? a.2 = some a.1)
    Rule.name where
  ok := by
    intro c a c' hc he
    unfold Rule.name at he
    split at he
    · next hkind =>
      obtain ⟨rfl, rfl⟩ := Prod.mk.inj (Except.ok.inj he)
      exact hc.advance (by rw [hkind]; decide)
    · cases he
  error := by
    intro c f hc he
    unfold Rule.name at he
    split at he
    · cases he
    · cases he; exact .refl hc

theorem Stands.previousSpan :
    Stands b n (fun c s c' => s = c.previousSpan ∧ c' = c) Rule.previousSpan where
  ok hc he := by
    obtain ⟨rfl, rfl⟩ := Prod.mk.inj (Except.ok.inj he)
    exact ⟨.refl hc, rfl, rfl⟩
  error _ he := nomatch he

theorem Stands.number : Stands b n (fun _ _ _ => True) Rule.number where
  ok := by
    intro c m c' hc he
    unfold Rule.number at he
    split at he
    · next hkind =>
      split at he
      · obtain ⟨rfl, rfl⟩ := Prod.mk.inj (Except.ok.inj he)
        exact ⟨(hc.advance (by rw [hkind]; decide)).1, trivial⟩
      · cases he
    · cases he
  error := by
    intro c f hc he
    unfold Rule.number at he
    split at he
    · split at he
      · cases he
      · cases he; exact .refl hc
    · cases he; exact .refl hc

theorem Stands.ifNext {kind : Kind} (hk : kind ≠ .endOfFile) {r : Span → Rule α}
    {otherwise : Rule α}
    (hr : ∀ c span, Stands b n (fun c₁ a c' => Taken n c span c₁ → Q c a c') (r span))
    (ho : Stands b n Q otherwise) : Stands b n Q (Rule.ifNext kind r otherwise) where
  ok := by
    intro c a c' hc he
    unfold Rule.ifNext at he
    split at he
    · next hkind =>
      obtain ⟨hreach, htaken, -⟩ := hc.advance (hkind ▸ hk)
      obtain ⟨hreach', hq⟩ := (hr c c.span).ok hreach.sound he
      exact ⟨hreach.trans hreach', hq htaken⟩
    · exact ho.ok hc he
  error := by
    intro c f hc he
    unfold Rule.ifNext at he
    split at he
    · next hkind =>
      have hreach := (hc.advance (hkind ▸ hk)).1
      exact hreach.trans ((hr c c.span).error hreach.sound he)
    · exact ho.error hc he

theorem Stands.width : Stands b n (fun _ _ _ => True) Rule.width :=
  .ifNext (by decide)
    (fun _ _ => .bind .number fun _ _ => .bind (.token (by decide)) fun _ _ => .pure (by simp))
    (.pure fun _ => trivial)

theorem Stands.pin : Stands b n (fun c p c' => Spanned n c p.span c') Rule.pin := by
  refine .bind .name fun c name => .bind .width fun c₁ width => .bind .previousSpan fun c₂ stop =>
    .pure ?_
  rintro c₃ - ⟨rfl, rfl⟩ hwidth - - ⟨hname, -⟩
  exact (hname.merge_previous hwidth).toSpanned

theorem Stands.range : Stands b n
    (fun c range c' => Row n c.passed (range.toList.map (·.span)) c'.passed) Rule.range := by
  have hlast (first : Nat) : Stands b n (fun _ _ _ => True)
      (Rule.ifNext .dotDot (fun _ => Rule.number) (Pure.pure first)) :=
    .ifNext (by decide) (fun _ _ => Stands.number.mono fun _ _ => trivial) (.pure fun _ => trivial)
  refine .ifNext (by decide) (fun c start => ?_) (.pure fun _ => .nil (Nat.le_refl _))
  refine .bind .number fun c₁ first => .bind (hlast first) fun c₂ last =>
    .bind (.token (by decide)) fun c₃ stop => .pure fun c₄ => ?_
  rintro - hstop hlast - hfirst - hstart
  exact (hstart.merge (Nat.le_trans hfirst.passed hlast.passed) hstop.toSpanned).row

theorem Stands.ref :
    Stands b n (fun c r c' => Spanned n c r.span c' ∧ r.Faithful b) Rule.ref := by
  refine .bind .name fun c name => .bind .range fun c₁ range => .bind .previousSpan fun c₂ stop =>
    .pure ?_
  rintro c₃ - ⟨rfl, rfl⟩ hreach hrange - ⟨hname, htext⟩
  have hspan := hname.merge_previous hreach
  refine ⟨hspan.toSpanned, ?_, ?_⟩
  · refine SourceBook.snippet?_extend htext (hspan.file.trans hname.file.symm) hspan.first ?_
    rw [hname.stop, hspan.stop]
    exact hreach.passed
  · rintro r rfl
    refine hrange.covers hspan.file ?_ (Nat.le_of_eq hspan.stop.symm) _ (List.mem_singleton_self _)
    rw [hspan.first, ← hname.stop]
    exact Nat.le_of_lt hname.solid

theorem Stands.binding :
    Stands b n (fun c x c' => Spanned n c x.span c' ∧ x.Faithful b) Rule.binding := by
  refine .bind .ref fun c inner => .bind (.token (by decide)) fun c₁ _ => .bind .ref fun c₂ outer =>
    .pure fun c₃ => ?_
  rintro - ⟨houter, houterFaithful⟩ hequals - - ⟨hinner, hinnerFaithful⟩
  exact ⟨(hinner.merge hequals.passed houter).toSpanned, hinnerFaithful, houterFaithful,
    isHull_merge hinner.file houter.file⟩

theorem Stands.bindings : Stands b n
    (fun c xs c' => Row n c.passed (xs.map (·.span)) c'.passed ∧ ∀ x ∈ xs, x.Faithful b)
    Rule.bindings where
  ok := by
    intro c xs c' hc he
    fun_induction Rule.bindings c generalizing xs c' with
    | case1 => cases he
    | case2 => cases he
    | case3 c x c₁ hx hk xs' c₂ hxs ih =>
      obtain ⟨rfl, rfl⟩ := Prod.mk.inj (Except.ok.inj he)
      obtain ⟨hreach, hspan, hx⟩ := binding.ok hc hx
      obtain ⟨hcomma, -, -⟩ := hreach.sound.advance (by rw [hk]; decide)
      obtain ⟨hreach', hrow, hrest⟩ := ih hcomma.sound hxs
      exact ⟨(hreach.trans hcomma).trans hreach', hspan.row.append (hrow.skip hcomma.passed),
        List.forall_mem_cons.2 ⟨hx, hrest⟩⟩
    | case4 c x c₁ hx =>
      obtain ⟨rfl, rfl⟩ := Prod.mk.inj (Except.ok.inj he)
      obtain ⟨hreach, hspan, hx⟩ := binding.ok hc hx
      exact ⟨hreach, hspan.row, List.forall_mem_singleton.2 hx⟩
  error := by
    intro c f hc he
    fun_induction Rule.bindings c generalizing f with
    | case1 c e hx => cases he; exact binding.error hc hx
    | case2 c x c₁ hx hk e hxs ih =>
      cases he
      have hreach := (binding.ok hc hx).1
      obtain ⟨hcomma, -, -⟩ := hreach.sound.advance (by rw [hk]; decide)
      exact (hreach.trans hcomma).trans (ih hcomma.sound hxs)
    | case3 => cases he
    | case4 => cases he

theorem Stands.arguments : Stands b n
    (fun c xs c' => Row n c.passed (xs.map (·.span)) c'.passed ∧ ∀ x ∈ xs, x.Faithful b)
    Rule.arguments where
  ok := by
    intro c xs c' hc he
    unfold Rule.arguments at he
    split at he
    · obtain ⟨rfl, rfl⟩ := Prod.mk.inj (Except.ok.inj he)
      exact ⟨.refl hc, .nil (Nat.le_refl _), List.forall_mem_nil _⟩
    · exact bindings.ok hc he
  error := by
    intro c f hc he
    unfold Rule.arguments at he
    split at he
    · cases he
    · exact bindings.error hc he

theorem Stands.part :
    Stands b n (fun c p c' => Spanned n c p.span c' ∧ p.Faithful b) Rule.part := by
  refine .bind .name fun c name => .bind (.token (by decide)) fun c₁ _ =>
    .bind .arguments fun c₂ xs => .bind (.token (by decide)) fun c₃ _ =>
      .bind (.token (by decide)) fun c₄ stop => .pure fun c₅ => ?_
  rintro - hstop hclose - harguments ⟨hrow, hxs⟩ hopen - - ⟨hname, -⟩
  have hle : c₂.passed ≤ c₄.passed := Nat.le_trans harguments.passed hclose.passed
  have hspan := hname.merge (Nat.le_trans hopen.passed hle) hstop.toSpanned
  -- the bindings lie after the name and before the semicolon
  have hlow : (name.2.merge stop).start ≤ c₂.passed := by
    rw [hspan.first]
    exact Nat.le_trans (Nat.le_of_lt hname.solid) (hname.stop ▸ hopen.passed)
  have hhigh : c₃.passed ≤ (name.2.merge stop).stop := by
    rw [hspan.stop, ← hstop.stop]
    exact Nat.le_trans hclose.passed (Nat.le_trans hstop.start (Nat.le_of_lt hstop.solid))
  have hcovers := hrow.covers hspan.file hlow hhigh
  exact ⟨hspan.toSpanned,
    fun x hx => ⟨hxs x hx, hcovers _ (List.mem_map_of_mem hx)⟩, hrow.inOrder⟩

/-- The keyword, and the name after it. -/
theorem Stands.header : Stands b n
    (fun c a c' => ∃ c₁, Spanned n c a.1 c₁ ∧ Row n c₁.passed [a.2.2] c'.passed ∧
      b.snippet? a.2.2 = some a.2.1) Rule.header := by
  refine .bind (.token (by decide)) fun c start => .bind .name fun c₁ name =>
    .bind (.token (by decide)) fun c₂ _ => .pure fun c₃ => ?_
  rintro hbrace - - ⟨hname, htext⟩ - hstart
  exact ⟨c₁, hstart.toSpanned, hname.row.extend hbrace.passed, htext⟩

end Rule

/-! ## Readings with recovery -/

variable {α : Type}

/-- The reading goes on in a file, and what was read stands in the relation `Q` to the offsets
before and after it. -/
structure Reading.Stands (b : SourceBook) (n : Nat) (Q : Nat → α → Nat → Prop) (c : Cursor)
    (r : Reading α) : Prop where
  reaches : c.Reaches b n r.cursor
  value : Q c.passed r.value r.cursor.passed

theorem stands_pinList {c : Cursor} (hc : c.Sound b n) :
    (pinList c).Stands b n (fun low ps high => Row n low (ps.map (·.span)) high) c := by
  fun_induction pinList c with
  | case1 c f h =>
    have hf := Rule.Stands.pin.error hc h
    have hreach := hf.trans (.skipToSection hf.sound)
    exact ⟨hreach, .nil hreach.passed⟩
  | case2 c p c₁ h hk _ ih =>
    obtain ⟨hreach, hspan⟩ := Rule.Stands.pin.ok hc h
    obtain ⟨hcomma, -, -⟩ := hreach.sound.advance (by rw [hk]; decide)
    obtain ⟨hreach', hrow⟩ := ih hcomma.sound
    exact ⟨(hreach.trans hcomma).trans hreach', hspan.row.append (hrow.skip hcomma.passed)⟩
  | case3 c p c₁ h hk f hf =>
    obtain ⟨hreach, hspan⟩ := Rule.Stands.pin.ok hc h
    have hf := (Rule.Stands.token (by decide)).error hreach.sound hf
    have hreach' := hf.trans (.skipToSection hf.sound)
    exact ⟨hreach.trans hreach', hspan.row.extend hreach'.passed⟩
  | case4 c p c₁ h hk s c₂ hs =>
    obtain ⟨hreach, hspan⟩ := Rule.Stands.pin.ok hc h
    have hreach' := ((Rule.Stands.token (by decide)).ok hreach.sound hs).1
    exact ⟨hreach.trans hreach', hspan.row.extend hreach'.passed⟩

/-- Parts in a row, each faithful to a file. -/
def PartsStand (b : SourceBook) (n : Nat) (low : Nat) (ps : List PartNode) (high : Nat) : Prop :=
  Row n low (ps.map (·.span)) high ∧ ∀ p ∈ ps, p.Faithful b

theorem stands_partList {c : Cursor} (hc : c.Sound b n) :
    (partList c).Stands b n (PartsStand b n) c := by
  fun_induction partList c with
  | case1 => exact ⟨.refl hc, .nil (Nat.le_refl _), List.forall_mem_nil _⟩
  | case2 c hk f h _ ih =>
    have hf := Rule.Stands.part.error hc h
    have hskip := hf.trans (.skipStatement hf.sound)
    obtain ⟨hreach, hrow, hparts⟩ := ih hskip.sound
    exact ⟨hskip.trans hreach, hrow.skip hskip.passed, hparts⟩
  | case3 c hk p c₁ h _ ih =>
    obtain ⟨hreach, hspan, hp⟩ := Rule.Stands.part.ok hc h
    obtain ⟨hreach', hrow, hparts⟩ := ih hreach.sound
    exact ⟨hreach.trans hreach', hspan.row.append hrow, List.forall_mem_cons.2 ⟨hp, hparts⟩⟩

theorem stands_partSection {c : Cursor} (hc : c.Sound b n) :
    (partSection c).Stands b n (PartsStand b n) c := by
  unfold partSection
  split
  · next h =>
    have hf := (Rule.Stands.token (by decide)).error hc h
    have hreach := hf.trans (.skipToSection hf.sound)
    exact ⟨hreach, .nil hreach.passed, List.forall_mem_nil _⟩
  · next h =>
    have hcolon := ((Rule.Stands.token (by decide)).ok hc h).1
    obtain ⟨hreach, hrow, hparts⟩ := stands_partList hcolon.sound
    exact ⟨hcolon.trans hreach, hrow.skip hcolon.passed, hparts⟩

/-- The nodes of the sections of a chip are in a row, list by list. -/
structure Sections.Stand (b : SourceBook) (n : Nat) (low : Nat) (s : Sections) (high : Nat) :
    Prop where
  inputs : Row n low (s.inputs.map (·.span)) high
  outputs : Row n low (s.outputs.map (·.span)) high
  parts : PartsStand b n low s.parts high

theorem Sections.Stand.skip {low mid high : Nat} {s : Sections} (h : s.Stand b n mid high)
    (hle : low ≤ mid) : s.Stand b n low high :=
  ⟨h.inputs.skip hle, h.outputs.skip hle, h.parts.1.skip hle, h.parts.2⟩

theorem stands_sections {c : Cursor} (hc : c.Sound b n) :
    (sections c).Stands b n (Sections.Stand b n) c := by
  fun_induction sections c with
  | case1 =>
    exact ⟨.refl hc, .nil (Nat.le_refl _), .nil (Nat.le_refl _), .nil (Nat.le_refl _),
      List.forall_mem_nil _⟩
  | case2 c h hk pins more ih =>
    obtain ⟨hkeyword, -, -⟩ := hc.advance (by rw [hk]; decide)
    obtain ⟨hpins, hrow⟩ := stands_pinList hkeyword.sound
    obtain ⟨hmore, hsections⟩ := ih hpins.sound
    have hreach := hkeyword.trans hpins
    obtain ⟨hinputs, houtputs, hparts⟩ := hsections.skip hreach.passed
    exact ⟨hreach.trans hmore, (hrow.appendMap hsections.inputs).skip hkeyword.passed, houtputs,
      hparts⟩
  | case3 c h hn hk pins more ih =>
    obtain ⟨hkeyword, -, -⟩ := hc.advance (by rw [hk]; decide)
    obtain ⟨hpins, hrow⟩ := stands_pinList hkeyword.sound
    obtain ⟨hmore, hsections⟩ := ih hpins.sound
    have hreach := hkeyword.trans hpins
    obtain ⟨hinputs, houtputs, hparts⟩ := hsections.skip hreach.passed
    exact ⟨hreach.trans hmore, hinputs, (hrow.appendMap hsections.outputs).skip hkeyword.passed,
      hparts⟩
  | case4 c h hn hn' hk parts more ih =>
    obtain ⟨hkeyword, -, -⟩ := hc.advance (by rw [hk]; decide)
    obtain ⟨hparts, hrow, hfaithful⟩ := stands_partSection hkeyword.sound
    obtain ⟨hmore, hsections⟩ := ih hparts.sound
    have hreach := hkeyword.trans hparts
    obtain ⟨hinputs, houtputs, -⟩ := hsections.skip hreach.passed
    exact ⟨hreach.trans hmore, hinputs, houtputs,
      (hrow.appendMap hsections.parts.1).skip hkeyword.passed,
      List.forall_mem_append.2 ⟨hfaithful, hsections.parts.2⟩⟩
  | case5 c h hn hn' hn'' more ih =>
    have hend : c.kind ≠ .endOfFile := fun he => h (by rw [he]; rfl)
    obtain ⟨htoken, -, -⟩ := hc.advance hend
    have hskip := htoken.trans (.skipToSection htoken.sound)
    obtain ⟨hmore, hsections⟩ := ih hskip.sound
    exact ⟨hskip.trans hmore, hsections.skip hskip.passed⟩

/-- A chip covers its sections. -/
theorem stands_chip {c : Cursor} (hc : c.Sound b n) :
    (chip c).Stands b n (fun low node high =>
      Row n low (node.toList.map (·.span)) high ∧ ∀ x ∈ node, x.Faithful b) c := by
  unfold chip
  split
  · next h =>
    have hf := Rule.Stands.header.error hc h
    exact ⟨hf, .nil hf.passed, fun _ hx => by cases hx⟩
  · next start name nameSpan c₁ h =>
    obtain ⟨hheader, c₀, hstart, hname, htext⟩ := Rule.Stands.header.ok hc h
    obtain ⟨hbody, hinputs, houtputs, hparts, hfaithful⟩ := stands_sections hheader.sound
    have hreach := hheader.trans hbody
    dsimp only
    split
    · next hf =>
      have hf := (Rule.Stands.token (by decide)).error hbody.sound hf
      exact ⟨hreach.trans hf, .nil (hreach.trans hf).passed, fun _ hx => by cases hx⟩
    · next stop c₂ hs =>
      obtain ⟨hbrace, hstop⟩ := (Rule.Stands.token (by decide)).ok hbody.sound hs
      have hspan := hstart.merge (Nat.le_trans hname.le hbody.passed) hstop.toSpanned
      have hfirst : (start.merge stop).start ≤ c₀.passed := by
        rw [hspan.first, ← hstart.stop]
        exact Nat.le_of_lt hstart.solid
      have hlow : (start.merge stop).start ≤ c₁.passed := Nat.le_trans hfirst hname.le
      have hhigh : (sections c₁).cursor.passed ≤ (start.merge stop).stop := by
        rw [hspan.stop]
        exact hbrace.passed
      refine ⟨hreach.trans hbrace, hspan.row, fun x hx => ?_⟩
      obtain rfl := Option.some.inj hx
      exact {
        name := htext
        nameSpan := hname.covers hspan.file hfirst (Nat.le_trans hbody.passed hhigh) _
          (List.mem_singleton_self _)
        inputs := fun p hp => hinputs.covers hspan.file hlow hhigh _ (List.mem_map_of_mem hp)
        outputs := fun p hp => houtputs.covers hspan.file hlow hhigh _ (List.mem_map_of_mem hp)
        parts := fun p hp =>
          ⟨hfaithful p hp, hparts.covers hspan.file hlow hhigh _ (List.mem_map_of_mem hp)⟩
        inputOrder := hinputs.inOrder
        outputOrder := houtputs.inOrder
        partOrder := hparts.inOrder }

theorem stands_items {c : Cursor} (hc : c.Sound b n) :
    (items c).Stands b n (fun low is high =>
      Row n low ((is.filterMap Item.chip?).map (·.span)) high ∧
        ∀ x ∈ is.filterMap Item.chip?, x.Faithful b) c := by
  fun_induction items c with
  | case1 => exact ⟨.refl hc, .nil (Nat.le_refl _), List.forall_mem_nil _⟩
  | case2 c _ _ one node h more ih =>
    obtain ⟨hreach, hrow, hnode⟩ := stands_chip hc
    obtain ⟨hmore, hrest, hfaithful⟩ := ih hreach.sound
    rw [h] at hrow hnode
    exact ⟨hreach.trans hmore, hrow.append hrest,
      List.forall_mem_cons.2 ⟨hnode node rfl, hfaithful⟩⟩
  | case3 c _ _ one h more ih =>
    obtain ⟨hreach, -, -⟩ := stands_chip hc
    have hskip := hreach.trans (.skipToChip hreach.sound)
    obtain ⟨hmore, hrest, hfaithful⟩ := ih hskip.sound
    exact ⟨hskip.trans hmore, hrest.skip hskip.passed, hfaithful⟩
  | case4 c _ _ more ih =>
    have hskip := Cursor.Reaches.skipToChip hc
    obtain ⟨hmore, hrest, hfaithful⟩ := ih hskip.sound
    exact ⟨hskip.trans hmore, hrest.skip hskip.passed, hfaithful⟩

/-! ## Files -/

theorem slice_stretch (before inside after : List Char) :
    slice (byteLength before) (byteLength before + byteLength inside)
      (before ++ (inside ++ after)) = inside := by
  rw [slice, cutAt_byteLength, Nat.add_sub_cancel_left, cutAt_byteLength]

theorem sound_lex {f : SourceFile} (hf : b.files[n]? = some f) :
    Cursor.Sound b n ⟨none, (lex (some n) f.text).tokens⟩ where
  previous _ hs := nomatch hs
  files := (ordered_lex n f.text).1
  ahead _ _ := Nat.zero_le _
  order := (spread_lex (some n) f.text).order.imp And.right
  texts := by
    intro t ht hk
    obtain ⟨hsolid, before, after, htext, hspan, -⟩ := (spread_lex (some n) f.text).lexemes t ht hk
    rw [List.nil_append] at htext
    refine ⟨hsolid, ?_⟩
    have hfile : b.fileOf? t.span = some f := by rw [hspan]; exact hf
    rw [SourceBook.snippet?, hfile, hspan]
    show some (String.ofList (slice _ _ f.text.toList)) = _
    rw [htext]
    exact congrArg some (by rw [stretch, slice_stretch, String.ofList_toList])

/-- **The spans in the document of a file are faithful to it.** -/
theorem faithful_parse {f : SourceFile} (hf : b.files[n]? = some f) :
    (parse (some n) f.text).document.Faithful b := by
  obtain ⟨-, hrow, hfaithful⟩ := stands_items (sound_lex hf)
  exact ⟨hfaithful, hrow.inOrder⟩

/-- A file with a pin and a part that cannot be read. -/
def bent : SourceFile :=
  ⟨"Bent.hdl", "CHIP Bent \x7b IN a[4], ?; OUT y, z; PARTS: Not(in=a[1..3], out=y);\n" ++
    "Or(a=a[0; And(a=y, b=y, out=z); \x7d CHIP Bare \x7b IN q; \x7d"⟩

theorem faithful_parse_bent :
    (parse (some 0) bent.text).faults.length = 3 ∧
      (parse (some 0) bent.text).document.chips.map
          (fun c => (c.name, c.span, c.parts.map fun p => (p.chip, p.span))) =
        [("Bent", ⟨some 0, 0, 98⟩, [("Not", ⟨some 0, 41, 64⟩), ("And", ⟨some 0, 75, 96⟩)]),
          ("Bare", ⟨some 0, 99, 118⟩, [])] ∧
      (parse (some 0) bent.text).document.Faithful ⟨#[bent]⟩ :=
  ⟨by decide +kernel, by decide +kernel, faithful_parse rfl⟩

end Hdl

end ChipLogic
