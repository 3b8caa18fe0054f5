import ChipLogic.Proofs.Hdl.Lexemes
import ChipLogic.Proofs.Hdl.Resume

/-!
# After which texts a chip is still read

Behind a text with faults the next `CHIP` is where the parser starts anew. There is one exception:
parts are read up to the next `}`, past any `CHIP`. So a text in which a chip and its parts are left
open (`LeavesParts`) takes the chip after it for some of its own parts.

**Up to the next chip.** A text that leaves no parts open is read, with whatever faults there are in
it, until the cursor stands before the chip after it (`comes_of_not_leavesParts`). A text that does
leave parts open is read like this up to its first chip of that sort, and this one goes on up to the
next `}`.

**Theorem (`resumes_iff`).** Every chip is read after a text as it is read alone if and only if the
text leaves no parts open.
-/

namespace ChipLogic.Hdl

/-! ## Open parts -/

/-- The words start a chip. -/
def OpensChip (name : String) (ws : List Word) : Prop :=
  ∃ a b, ws = [(.chip, a), (.identifier, name), (.leftBrace, b)]

/-- The words of a chip after its `{` go on in its parts up to their end. -/
inductive OpensParts : List Word → Prop
  | parts {a b : String} {ws : List Word} (inside : ∀ w ∈ ws, w.1 ≠ .rightBrace) :
      OpensParts ((.parts, a) :: (.colon, b) :: ws)
  | cons {w : Word} {ws : List Word} (brace : w.1 ≠ .rightBrace) (chip : w.1 ≠ .chip)
      (rest : OpensParts ws) : OpensParts (w :: ws)

/-- The words between the `{` of a chip and its `}`. -/
inductive IsBody : List Word → Prop
  | nil : IsBody []
  | parts {a b : String} {ws : List Word} (inside : ∀ w ∈ ws, w.1 ≠ .rightBrace) :
      IsBody ((.parts, a) :: (.colon, b) :: ws)
  | cons {w : Word} {ws : List Word} (brace : w.1 ≠ .rightBrace) (chip : w.1 ≠ .chip)
      (rest : IsBody ws) : IsBody (w :: ws)

/-- The last words are in the parts of a chip that nothing closes. -/
inductive LeavesParts : List Word → Prop
  | chip {a b name : String} {body : List Word} (parts : OpensParts body) :
      LeavesParts ((.chip, a) :: (.identifier, name) :: (.leftBrace, b) :: body)
  | later {w : Word} {ws : List Word} (rest : LeavesParts ws) : LeavesParts (w :: ws)

theorem LeavesParts.of_suffix {us ws : List Word} (h : LeavesParts us) (hs : us <:+ ws) :
    LeavesParts ws := by
  obtain ⟨before, rfl⟩ := hs
  induction before with
  | nil => exact h
  | cons w before ih => exact .later ih

theorem OpensChip.no_brace {name : String} {ws : List Word} (h : OpensChip name ws) :
    ∀ w ∈ ws, w.1 ≠ .rightBrace := by
  obtain ⟨a, b, rfl⟩ := h
  simp

theorem OpensParts.isBody {ws : List Word} (h : OpensParts ws) : IsBody ws := by
  induction h with
  | parts inside => exact .parts inside
  | cons brace chip rest ih => exact .cons brace chip ih

theorem IsBody.no_brace {ws : List Word} (h : IsBody ws) : ∀ w ∈ ws, w.1 ≠ .rightBrace := by
  induction h with
  | nil => exact List.forall_mem_nil _
  | parts inside => exact List.forall_mem_cons.2 ⟨nofun, List.forall_mem_cons.2 ⟨nofun, inside⟩⟩
  | cons brace chip rest ih => exact List.forall_mem_cons.2 ⟨brace, ih⟩

theorem OpensParts.no_brace {ws : List Word} (h : OpensParts ws) : ∀ w ∈ ws, w.1 ≠ .rightBrace :=
  h.isBody.no_brace

theorem OpensParts.append {us ws : List Word} (h : OpensParts us)
    (hws : ∀ w ∈ ws, w.1 ≠ .rightBrace) : OpensParts (us ++ ws) := by
  induction h with
  | parts inside => exact .parts (List.forall_mem_append.2 ⟨inside, hws⟩)
  | cons brace chip rest ih => exact .cons brace chip ih

/-- There is a first chip whose parts are left open. -/
theorem LeavesParts.first {ws : List Word} (h : LeavesParts ws) : ∃ before name head body,
    ws = before ++ (head ++ body) ∧ OpensChip name head ∧ OpensParts body ∧
      ¬ LeavesParts before := by
  induction h with
  | @chip a b name body parts => exact ⟨[], name, _, body, rfl, ⟨a, b, rfl⟩, parts, nofun⟩
  | @later w ws rest ih =>
    obtain ⟨before, name, head, body, rfl, hhead, hbody, hnone⟩ := ih
    by_cases hopen : LeavesParts (w :: before)
    · cases hopen with
      | later rest => exact absurd rest hnone
      | @chip a b name' body' parts =>
        -- what comes after it is taken for parts of the first chip
        have hrest : ∀ w ∈ head ++ body, w.1 ≠ .rightBrace :=
          List.forall_mem_append.2 ⟨hhead.no_brace, hbody.no_brace⟩
        exact ⟨[], name', _, body' ++ (head ++ body), rfl, ⟨a, b, rfl⟩, parts.append hrest, nofun⟩
    · exact ⟨w :: before, name, head, body, rfl, hhead, hbody, hopen⟩

/-! ## The end of the sections -/

theorem dropWhile_append_of_mem {α : Type} {p : α → Bool} {xs : List α} {x : α} (hx : x ∈ xs)
    (hp : p x = false) (ys : List α) : (xs ++ ys).dropWhile p = xs.dropWhile p ++ ys := by
  induction xs with
  | nil => cases hx
  | cons y xs ih =>
    rw [List.cons_append, List.dropWhile_cons, List.dropWhile_cons]
    split
    · next hy =>
      rcases List.mem_cons.1 hx with rfl | hx
      · rw [hp] at hy; cases hy
      · exact ih hx
    · rfl

/-- Sections that leave no parts open end before the next chip. -/
theorem sectionsEnd_of_not_opensParts {us vs : List Word} (h : ¬ OpensParts us)
    (hvs : nextKind vs = .chip) : ∃ us', us' <:+ us ∧ sectionsEnd (us ++ vs) = us' ++ vs := by
  induction us with
  | nil =>
    cases vs with
    | nil => cases hvs
    | cons v vs =>
      have hends : endsSections v.1 = true := by rw [show v.1 = _ from hvs]; rfl
      exact ⟨[], List.nil_suffix, if_pos hends⟩
  | cons w us ih =>
    simp only [List.cons_append, sectionsEnd]
    split
    · exact ⟨w :: us, List.suffix_refl _, rfl⟩
    next hends =>
    split
    · next hparts =>
      cases us with
      | nil => exact absurd (hvs.symm.trans hparts.2) (by decide)
      | cons v us =>
        -- parts that are not open end at a brace
        have hbrace : ∃ x ∈ us, x.1 = .rightBrace := by
          obtain ⟨⟨_, a⟩, ⟨_, b⟩⟩ := w, v
          obtain ⟨rfl, rfl⟩ := hparts
          exact Classical.byContradiction fun hnone =>
            h (.parts fun x hx he => hnone ⟨x, hx, he⟩)
        obtain ⟨x, hx, he⟩ := hbrace
        exact ⟨_, (List.dropWhile_suffix _).trans (List.suffix_cons w _),
          dropWhile_append_of_mem (List.mem_cons_of_mem _ hx) (by rw [he]; rfl) vs⟩
    · have hbrace : w.1 ≠ .rightBrace := fun he => hends (by rw [he]; rfl)
      have hchip : w.1 ≠ .chip := fun he => hends (by rw [he]; rfl)
      obtain ⟨us', hs, he⟩ := ih fun hopen => h (.cons hbrace hchip hopen)
      exact ⟨us', hs.trans (List.suffix_cons _ _), he⟩

/-- The parts of a chip end at its brace. -/
theorem partsEnd_of_no_brace {ws rest : List Word} {text : String}
    (hbrace : ∀ w ∈ ws, w.1 ≠ .rightBrace) (hend : ∀ w ∈ ws, w.1 ≠ .endOfFile) :
    (ws ++ (.rightBrace, text) :: rest).dropWhile (fun w => !endsParts w.1) =
      (.rightBrace, text) :: rest := by
  rw [List.dropWhile_append_of_pos]
  · rfl
  · intro w hw
    simpa [endsParts] using ⟨hend w hw, hbrace w hw⟩

/-- The sections of a chip end at its brace. -/
theorem sectionsEnd_of_isBody {body rest : List Word} {text : String} (h : IsBody body)
    (hend : ∀ w ∈ body, w.1 ≠ .endOfFile) :
    sectionsEnd (body ++ (.rightBrace, text) :: rest) = (.rightBrace, text) :: rest := by
  induction h with
  | nil => rfl
  | parts inside =>
    simp only [List.forall_mem_cons] at hend
    exact partsEnd_of_no_brace (List.forall_mem_cons.2 ⟨nofun, inside⟩)
      (List.forall_mem_cons.2 ⟨nofun, hend.2.2⟩)
  | @cons w ws brace chip tail ih =>
    obtain ⟨hw, hws⟩ := List.forall_mem_cons.1 hend
    have hends : ¬ endsSections w.1 = true := by simpa [endsSections] using ⟨⟨hw, brace⟩, chip⟩
    rw [List.cons_append, sectionsEnd, if_neg hends]
    split
    · exact partsEnd_of_no_brace tail.no_brace hws
    · exact ih hws

/-! ## Up to the next chip -/

/-- A chip ends before the next one, unless its parts are left open. -/
theorem chip_before {c : Cursor} {us vs : List Word} {w : Word} (hk : c.kind = .chip)
    (hc : c.words = (w :: us) ++ vs) (hvs : nextKind vs = .chip) (h : ¬ LeavesParts (w :: us)) :
    ∃ us', us' <:+ us ∧ (chip c).cursor.words = us' ++ vs := by
  have hadvance : c.advance.words = us ++ vs := by
    have hwords := (Cursor.Passes.advance hk (by decide)).words
    exact (List.cons.inj (hwords.symm.trans hc)).2
  cases hheader : Rule.header c with
  | error f => exact (chip_of_header_error hk hheader).2.before hadvance (by rw [hvs]; rfl)
  | ok found =>
    obtain ⟨⟨start, name, nameSpan⟩, c₁⟩ := found
    obtain ⟨_, hpass, a, b, rfl⟩ := Rule.Reads.header.ok hheader
    obtain ⟨rfl, hrest⟩ := List.cons.inj (hc.symm.trans hpass.words)
    have hover : c.advance.Over isPlain c₁ :=
      ⟨[(.identifier, name), (.leftBrace, b)], hadvance.trans hrest, by simp [isPlain]⟩
    obtain ⟨body, -, hbody⟩ := hover.before hadvance (by rw [hvs]; rfl)
    have hus : us = (.identifier, name) :: (.leftBrace, b) :: body := by
      rw [hbody] at hrest
      exact List.append_cancel_right hrest
    have hsuffix : body <:+ us := ⟨[_, _], hus.symm⟩
    have hclosed : ¬ OpensParts body := fun hopen => h (hus ▸ .chip hopen)
    obtain ⟨us', hs, hstop⟩ := sectionsEnd_of_not_opensParts hclosed hvs
    rw [← hbody] at hstop
    rcases chip_of_header hheader with ⟨text, rest, hend, hcursor, -⟩ | ⟨-, -, hcursor⟩
    · cases us' with
      | nil =>
        rw [← List.nil_append vs, ← hstop, hend] at hvs
        cases hvs
      | cons x us' =>
        have hrest := (List.cons.inj (hstop.symm.trans hend)).2
        exact ⟨us', ((List.suffix_cons x us').trans hs).trans hsuffix, hcursor.trans hrest.symm⟩
    · exact ⟨us', hs.trans hsuffix, hcursor.trans hstop⟩

/-- One turn of the parser: it reads an item, and the cursor goes on after it. -/
inductive Turn : Cursor → Item → Cursor → Prop
  | chip {c : Cursor} {node : ChipNode} (kind : c.kind = .chip)
      (value : (Hdl.chip c).value = some node) : Turn c (.chip node) (Hdl.chip c).cursor
  | failed {c : Cursor} (kind : c.kind = .chip) (value : (Hdl.chip c).value = none) :
      Turn c (skippedItem (Hdl.chip c).cursor) (Hdl.chip c).cursor.skipToChip
  | stray {c : Cursor} (inside : c.kind ≠ .endOfFile) (kind : c.kind ≠ .chip) :
      Turn c (skippedItem c) c.skipToChip

/-- The turns from one cursor to another one give these items. -/
inductive Turns : Cursor → List Item → Cursor → Prop
  | refl (c : Cursor) : Turns c [] c
  | cons {c c₁ c' : Cursor} {i : Item} {is : List Item} (first : Turn c i c₁)
      (rest : Turns c₁ is c') : Turns c (i :: is) c'

theorem Turn.items {c c' : Cursor} {i : Item} (h : Turn c i c') :
    (items c).value = i :: (items c').value := by
  cases h with
  | chip kind value =>
    rw [Hdl.items, dif_neg (by rw [kind]; decide), dif_pos kind]
    simp only [value]
  | failed kind value =>
    rw [Hdl.items, dif_neg (by rw [kind]; decide), dif_pos kind]
    simp only [value]
  | stray inside kind => rw [Hdl.items, dif_neg inside, dif_neg kind]

theorem turns_items (c : Cursor) : Turns c (items c).value (items c).cursor := by
  fun_induction items c with
  | case1 c hk => exact .refl c
  | case2 c hk hchip one node hnode more ih => exact .cons (.chip hchip hnode) ih
  | case3 c hk hchip one hnone more ih => exact .cons (.failed hchip hnone) ih
  | case4 c hk hchip more ih => exact .cons (.stray hk hchip) ih

theorem Turns.items {c c' : Cursor} {is : List Item} (h : Turns c is c') :
    (items c).value = is ++ (items c').value := by
  induction h with
  | refl => rfl
  | cons first rest ih => rw [first.items, ih, List.cons_append]

/-- Reading comes to a place before these words. -/
def Comes (c : Cursor) (vs : List Word) : Prop :=
  ∃ done c', (items c).value = done ++ (items c').value ∧ c'.words = vs

/-- **The turns come to the chip after words that leave no parts open.** -/
theorem turns_of_not_leavesParts {vs : List Word} (hvs : nextKind vs = .chip) (c : Cursor) :
    ∀ us, c.words = us ++ vs → ¬ LeavesParts us → (∀ w ∈ us, w.1 ≠ .endOfFile) →
      ∃ done c', Turns c done c' ∧ c'.words = vs := by
  have hskip : ∀ {c : Cursor} {us : List Word}, c.words = us ++ vs →
      ∃ us', us' <:+ us ∧ c.skipToChip.words = us' ++ vs :=
    fun hc => (over_skipToChip _).before hc (by rw [hvs]; rfl)
  induction c using items.induct with
  | case1 c hk =>
    intro us hc h hend
    cases us with
    | nil => exact ⟨[], c, .refl c, hc⟩
    | cons w us =>
      rw [c.kind_eq, hc] at hk
      exact absurd hk (hend w List.mem_cons_self)
  | case2 c hk hchip one node hnode ih =>
    intro us hc h hend
    cases us with
    | nil => exact ⟨[], c, .refl c, hc⟩
    | cons w us =>
      obtain ⟨us', hs, hcursor⟩ := chip_before hchip hc hvs h
      have hs := hs.trans (List.suffix_cons w us)
      obtain ⟨done, c', hturns, hwords⟩ :=
        ih us' hcursor (fun hl => h (hl.of_suffix hs)) fun x hx => hend x (hs.subset hx)
      exact ⟨_, c', .cons (.chip hchip hnode) hturns, hwords⟩
  | case3 c hk hchip one hnone ih =>
    intro us hc h hend
    cases us with
    | nil => exact ⟨[], c, .refl c, hc⟩
    | cons w us =>
      obtain ⟨us', hs, hcursor⟩ := chip_before hchip hc hvs h
      obtain ⟨us'', hs', hcursor'⟩ := hskip hcursor
      have hs := (hs'.trans hs).trans (List.suffix_cons w us)
      obtain ⟨done, c', hturns, hwords⟩ :=
        ih us'' hcursor' (fun hl => h (hl.of_suffix hs)) fun x hx => hend x (hs.subset hx)
      exact ⟨_, c', .cons (.failed hchip hnone) hturns, hwords⟩
  | case4 c hk hchip ih =>
    intro us hc h hend
    obtain ⟨us', hs, hcursor⟩ := hskip hc
    obtain ⟨done, c', hturns, hwords⟩ :=
      ih us' hcursor (fun hl => h (hl.of_suffix hs)) fun x hx => hend x (hs.subset hx)
    exact ⟨_, c', .cons (.stray hk hchip) hturns, hwords⟩

/-- **Reading comes to the chip after words that leave no parts open.** -/
theorem comes_of_not_leavesParts {vs : List Word} (hvs : nextKind vs = .chip) (c : Cursor)
    (us : List Word) (hc : c.words = us ++ vs) (h : ¬ LeavesParts us)
    (hend : ∀ w ∈ us, w.1 ≠ .endOfFile) : Comes c vs := by
  obtain ⟨done, c', hturns, hwords⟩ := turns_of_not_leavesParts hvs c us hc h hend
  exact ⟨done, c', hturns.items, hwords⟩

/-- A chip is read up to the brace that closes it, and has the name in its header. -/
theorem chip_of_isBody {c : Cursor} {name text : String} {head body rest : List Word}
    (hc : c.words = head ++ (body ++ (.rightBrace, text) :: rest)) (hhead : OpensChip name head)
    (hbody : IsBody body) (hend : ∀ w ∈ body, w.1 ≠ .endOfFile) :
    (chip c).cursor.words = rest ∧ ∃ node, (chip c).value = some node ∧ node.name = name := by
  obtain ⟨a, b, rfl⟩ := hhead
  obtain ⟨⟨start, name', nameSpan⟩, c₁, hheader, hc₁, rfl⟩ :=
    Rule.Accepts.header.ok c _ hc trivial
  have hstop : sectionsEnd c₁.words = (.rightBrace, text) :: rest := by
    rw [hc₁]
    exact sectionsEnd_of_isBody hbody hend
  rcases chip_of_header hheader with ⟨_, _, hbrace, hcursor, hnode⟩ | ⟨hbrace, -, -⟩
  · rw [hstop] at hbrace
    obtain ⟨-, rfl⟩ := List.cons.inj hbrace
    exact ⟨hcursor, hnode⟩
  · rw [hstop] at hbrace
    exact absurd rfl hbrace

theorem OpensChip.nextKind {name : String} {head : List Word} (h : OpensChip name head)
    (rest : List Word) : nextKind (head ++ rest) = .chip := by
  obtain ⟨a, b, rfl⟩ := h
  rfl

/-! ## Texts -/

theorem StopsAt.newline {q : Char → Bool} {cs : List Char} (h : StopsAt q cs) (hq : q '\n' = false)
    (ds : List Char) : StopsAt q (cs ++ '\n' :: ds) := by
  cases cs with
  | nil => exact fun c hc => Option.some.inj hc ▸ hq
  | cons c cs => exact h

theorem IsStray.newline {c : Char} {cs : List Char} (h : IsStray c cs) (ds : List Char) :
    IsStray c (cs ++ '\n' :: ds) := by
  cases cs with
  | nil => exact ⟨h.space, h.word, h.mark, fun _ => by simp, fun _ => by simp⟩
  | cons d cs => exact ⟨h.space, h.word, h.mark, h.dots, h.comment⟩

/-- A newline does not change the piece before it, unless it is an open comment. -/
theorem IsPiece.newline {cs : List Char} {p : Piece} (h : IsPiece cs p) (hp : ¬ p.isOpen)
    (ds : List Char) : IsPiece (cs ++ '\n' :: ds) p := by
  cases h with
  | blank space => exact .blank space
  | line inside stop => exact .line inside (stop.newline rfl ds)
  | block first => exact .block first
  | openBlock => exact absurd rfl hp
  | word word stop => exact .word word (stop.newline rfl ds)
  | number digits stop => exact .number digits (stop.newline rfl ds)
  | mark mark => exact .mark mark
  | dots => exact .dots
  | stray stray => exact .stray (stray.newline ds)

theorem Divides.newline {cs : List Char} {ps : List Piece} (h : Divides cs ps)
    (hps : ∀ p ∈ ps, ¬ p.isOpen) (ds : List Char) :
    Divides (cs ++ '\n' :: ds) (ps ++ .blank '\n' :: Piece.split ds) := by
  induction h with
  | nil => exact .cons (.blank rfl) (Piece.divides_split ds)
  | cons head tail ih =>
    obtain ⟨hp, hps⟩ := List.forall_mem_cons.1 hps
    rw [List.append_assoc]
    exact .cons (head.newline hp ds) (ih hps)

/-- After a newline a text starts anew. -/
theorem split_newline {cs : List Char} (h : ¬ EndsOpen cs) (ds : List Char) :
    Piece.split (cs ++ '\n' :: ds) = Piece.split cs ++ .blank '\n' :: Piece.split ds := by
  have hdivides := Piece.divides_split cs
  rcases hdivides.filter_isOpen with hnone | ⟨qs, comment, he, -⟩
  · exact (divides_iff.1 (hdivides.newline (List.filter_eq_nil_iff.1 hnone) ds)).symm
  · exact absurd ⟨qs, comment, he ▸ hdivides⟩ h

theorem words_lex (file : Option Nat) (text : String) :
    Cursor.words ⟨none, (lex file text).tokens⟩ =
      words (Piece.split text.toList) ++ [(.endOfFile, "")] :=
  words_tokensFrom file 0 _

theorem words_newline {s : String} (h : ¬ EndsOpen s.toList) (t : String) :
    words (Piece.split (s ++ "\n" ++ t).toList) =
      words (Piece.split s.toList) ++ words (Piece.split t.toList) := by
  have htext : (s ++ "\n" ++ t).toList = s.toList ++ '\n' :: t.toList := by simp
  rw [htext, split_newline h, words_append]
  rfl

/-- After the first text the chip in the second one is read as it is read alone. -/
def ResumesAfter (file : Option Nat) (s t : String) : Prop :=
  ∃ node alone, (parse file (s ++ "\n" ++ t)).document.items.getLast? = some (.chip node) ∧
    (parse file t).document.items = [.chip alone] ∧ node.bare = alone.bare

theorem exists_of_map_bare {is : List Item} {x : ChipNode} (h : is.map Item.bare = [.chip x]) :
    ∃ node, is = [.chip node] ∧ node.bare = x := by
  obtain ⟨i, rfl, hi⟩ := List.map_eq_singleton_iff.1 h
  cases i with
  | chip node => exact ⟨node, rfl, Item.chip.inj hi⟩
  | skipped span => cases hi

theorem nextKind_of_chips {ws rest : List Word} {x : ChipNode} {xs : List ChipNode}
    (h : Star IsChip ws (x :: xs)) : nextKind (ws ++ rest) = .chip := by
  cases h with
  | cons head tail =>
    obtain ⟨_, _⟩ := head
    rfl

/-- A chip after a text that leaves no parts open is the last one that is read. -/
theorem resumesAfter_of_not_leavesParts {file : Option Nat} {s t : String} {x : ChipNode}
    (hs : ¬ EndsOpen s.toList) (hparts : ¬ LeavesParts (words (Piece.split s.toList)))
    (ht : Declares t [x]) : ResumesAfter file s t := by
  obtain ⟨alone, halone, hx⟩ := exists_of_map_bare (clean_parse ht file).2
  have hwords := words_lex file (s ++ "\n" ++ t)
  rw [words_newline hs, List.append_assoc] at hwords
  obtain ⟨done, c', hvalue, hc'⟩ := comes_of_not_leavesParts (nextKind_of_chips ht.file) _ _ hwords
    hparts fun w => kind_ne_endOfFile_of_mem_words
  obtain ⟨node, hnode, hbare⟩ := exists_of_map_bare (clean_items ht.file hc' rfl).value
  refine ⟨node, alone, ?_, halone, hbare.trans hx.symm⟩
  show (items _).value.getLast? = _
  rw [hvalue, hnode, List.getLast?_concat]

/-- A chip that the parser comes to and that a brace closes is read. -/
theorem items_of_isBody (file : Option Nat) {text name brace : String}
    {before head body rest : List Word}
    (hwords : words (Piece.split text.toList) =
      before ++ (head ++ (body ++ (.rightBrace, brace) :: rest)))
    (hbefore : ¬ LeavesParts before) (hhead : OpensChip name head) (hbody : IsBody body) :
    ∃ done node c, (parse file text).document.items = done ++ .chip node :: (items c).value ∧
      node.name = name ∧ c.words = rest ++ [(.endOfFile, "")] := by
  have hend : ∀ w ∈ before ++ (head ++ (body ++ (.rightBrace, brace) :: rest)),
      w.1 ≠ .endOfFile := by
    rw [← hwords]
    exact fun w => kind_ne_endOfFile_of_mem_words
  simp only [List.forall_mem_append] at hend
  have hlex := words_lex file text
  simp only [hwords, List.append_assoc, List.cons_append] at hlex
  obtain ⟨done, c, hvalue, hc⟩ :=
    comes_of_not_leavesParts (hhead.nextKind _) _ _ hlex hbefore hend.1
  obtain ⟨hcursor, node, hnode, hname⟩ := chip_of_isBody hc hhead hbody hend.2.2.1
  have hchip : c.kind = .chip := by rw [c.kind_eq, hc, hhead.nextKind]
  have hitems : (items c).value = .chip node :: (items (chip c).cursor).value := by
    rw [items, dif_neg (by rw [hchip]; decide), dif_pos hchip]
    simp only [hnode]
  refine ⟨done, node, (chip c).cursor, ?_, hname, hcursor⟩
  show (items _).value = _
  rw [hvalue, hitems]

/-- The first chip whose parts are left open ends at the next brace. -/
theorem last_of_leavesParts {file : Option Nat} {text name brace : String}
    {before head body : List Word}
    (hwords : words (Piece.split text.toList) = before ++ (head ++ (body ++ [(.rightBrace, brace)])))
    (hfirst : ¬ LeavesParts before) (hhead : OpensChip name head) (hbody : IsBody body) :
    ∃ node, (parse file text).document.items.getLast? = some (.chip node) ∧ node.name = name := by
  obtain ⟨done, node, c, hitems, hname, hc⟩ := items_of_isBody file hwords hfirst hhead hbody
  have hstop : c.kind = .endOfFile := by rw [c.kind_eq, hc]; rfl
  refine ⟨node, ?_, hname⟩
  rw [hitems, items, dif_pos hstop, List.getLast?_concat]

/-- The words of a chip without pins and parts. -/
def emptyChip (name : String) : List Word :=
  [(.chip, "CHIP"), (.identifier, name), (.leftBrace, "\x7b"), (.rightBrace, "\x7d")]

theorem declares_of_emptyChip {t name : String} (hfine : ∀ p ∈ Piece.split t.toList, p.isFine)
    (hwords : words (Piece.split t.toList) = emptyChip name) :
    Declares t [⟨name, .nowhere, [], [], [], .nowhere⟩] := by
  have hchip : IsChip (emptyChip name) ⟨name, .nowhere, [], [], [], .nowhere⟩ :=
    @IsChip.mk _ _ _ name [] [] [] [] .nil .none
  refine ⟨hfine, ?_⟩
  rw [hwords, ← List.append_nil (emptyChip name)]
  exact .cons hchip .nil

/-- There is a text with such a chip of another name. -/
theorem exists_emptyChip (name : String) : ∃ t name' : String, name' ≠ name ∧
    (∀ p ∈ Piece.split t.toList, p.isFine) ∧ words (Piece.split t.toList) = emptyChip name' := by
  by_cases hname : name = "A"
  · exact ⟨"CHIP B\x7b\x7d", "B", by rw [hname]; decide, by decide +kernel, by decide +kernel⟩
  · exact ⟨"CHIP A\x7b\x7d", "A", Ne.symm hname, by decide +kernel, by decide +kernel⟩

/-- **Every chip is read after a text as it is read alone just if the text leaves no parts open.** -/
theorem resumes_iff (file : Option Nat) {s : String} (h : ¬ EndsOpen s.toList) :
    (∀ t x, Declares t [x] → ResumesAfter file s t) ↔
      ¬ LeavesParts (words (Piece.split s.toList)) := by
  refine ⟨fun hall hparts => ?_, fun hparts t x => resumesAfter_of_not_leavesParts h hparts⟩
  obtain ⟨before, name, head, body, hwords, hhead, hbody, hfirst⟩ := hparts.first
  obtain ⟨t, name', hne, hfine, htwords⟩ := exists_emptyChip name
  have hchip : OpensChip name' ((emptyChip name').dropLast) := ⟨_, _, rfl⟩
  have hboth : words (Piece.split (s ++ "\n" ++ t).toList) =
      before ++ (head ++ ((body ++ (emptyChip name').dropLast) ++ [(.rightBrace, "\x7d")])) := by
    rw [words_newline h, hwords, htwords]
    simp [emptyChip]
  -- the last chip is the one whose parts are left open, not the one in the second text
  obtain ⟨node, hnode, rfl⟩ :=
    last_of_leavesParts hboth hfirst hhead (hbody.append hchip.no_brace).isBody
  have ht := declares_of_emptyChip hfine htwords
  obtain ⟨node', alone, hlast, halone, hbare⟩ := hall t _ ht
  obtain ⟨alone', halone', hx⟩ := exists_of_map_bare (clean_parse ht file).2
  rw [halone] at halone'
  rw [hnode] at hlast
  obtain rfl : alone = alone' := by simpa using halone'
  obtain rfl : node = node' := by simpa using hlast
  exact hne (congrArg ChipNode.name (hbare.trans hx)).symm

theorem not_endsOpen {cs : List Char} (h : ∀ p ∈ Piece.split cs, ¬ p.isOpen) : ¬ EndsOpen cs :=
  fun hopen => (Piece.divides_split cs).isOpen_of_endsOpen hopen (List.filter_eq_nil_iff.2 h)

theorem OpensParts.exists_parts {ws : List Word} (h : OpensParts ws) : ∃ w ∈ ws, w.1 = .parts := by
  induction h with
  | parts inside => exact ⟨_, List.mem_cons_self, rfl⟩
  | cons brace chip rest ih =>
    obtain ⟨w, hw, hk⟩ := ih
    exact ⟨w, List.mem_cons_of_mem _ hw, hk⟩

theorem LeavesParts.exists_parts {ws : List Word} (h : LeavesParts ws) : ∃ w ∈ ws, w.1 = .parts := by
  obtain ⟨before, name, head, body, rfl, -, hbody, -⟩ := h.first
  obtain ⟨w, hw, hk⟩ := hbody.exists_parts
  exact ⟨w, List.mem_append_right _ (List.mem_append_right _ hw), hk⟩

/-- A text with a stray character that ends within a chip, before its parts. -/
def halted : String := "CHIP Halted \x7b IN a[2, ?; OUT b, // c"

theorem resumes_iff_halted :
    ¬ EndsOpen halted.toList ∧ ∀ t x, Declares t [x] → ResumesAfter none halted t := by
  have hclosed : ¬ EndsOpen halted.toList := not_endsOpen (by decide +kernel)
  have hparts : ¬ LeavesParts (words (Piece.split halted.toList)) := by
    intro hopen
    obtain ⟨w, hw, hk⟩ := hopen.exists_parts
    have hnone : ∀ w ∈ words (Piece.split halted.toList), w.1 ≠ .parts := by decide +kernel
    exact hnone w hw hk
  exact ⟨hclosed, (resumes_iff none hclosed).2 hparts⟩

/-- A text that ends within the parts of a chip. -/
def unclosed : String :=
  "CHIP Bad \x7b\n    IN a;\n    OUT out;\n    PARTS:\n    Not(in=a, out=out)"

/-- A chip without a fault. -/
def closed : String := "CHIP Good \x7b IN a; OUT out; PARTS: Not(in=a, out=out); \x7d"

theorem not_resumesAfter_unclosed : ¬ EndsOpen unclosed.toList ∧ (∃ x, Declares closed [x]) ∧
    ¬ ResumesAfter none unclosed closed := by
  refine ⟨not_endsOpen (by decide +kernel), ?_, ?_⟩
  · have hfaults : (parse none closed).faults = [] := by decide +kernel
    obtain ⟨chips, hchips⟩ := exists_declares_of_faultless hfaults
    have hlength : (parse none closed).document.items.length = 1 := by decide +kernel
    have hitems := congrArg List.length (clean_parse hchips none).2
    rw [List.length_map, List.length_map, hlength] at hitems
    obtain ⟨x, rfl⟩ := List.length_eq_one_iff.1 hitems.symm
    exact ⟨x, hchips⟩
  · rintro ⟨node, alone, hlast, halone, hbare⟩
    have hbad : ((parse none (unclosed ++ "\n" ++ closed)).document.items.getLast?.bind
        Item.chip?).map (·.name) = some "Bad" := by decide +kernel
    have hgood : (parse none closed).document.chips.map (·.name) = ["Good"] := by decide +kernel
    rw [hlast] at hbad
    rw [Document.chips, halone] at hgood
    have hname : node.bare.name = alone.bare.name := congrArg ChipNode.name hbare
    have hbad : node.bare.name = "Bad" := Option.some.inj hbad
    have hgood : alone.bare.name = "Good" := (List.cons.inj hgood).1
    rw [hbad, hgood] at hname
    exact absurd hname (by decide)

end ChipLogic.Hdl
