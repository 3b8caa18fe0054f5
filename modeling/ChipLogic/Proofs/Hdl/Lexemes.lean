import ChipLogic.Proofs.Hdl.Dividing
import ChipLogic.Proofs.Hdl.Places
import ChipLogic.Proofs.Hdl.Reads
import ChipLogic.Proofs.Source.Holds

/-!
# What the tokens of a text are

The tokens of a text lie one after the other in it, with nothing but blanks and comments between
them (`IsGap`), and each is one of five things (`IsLexeme`): a word as long as it can be, a run of
digits as long as it can be, a mark, two dots, or a character that fits nowhere else.

As long as it can be means on both sides: no longer stretch of the text around it is a word, or a
run of digits (`Longest`). To the right this is how a piece is split off. To the left it is carried
along from piece to piece: no word and no digits that end where a piece starts could go on in it
(`Parted`).

**Theorem (`lex_exact`).** Lexing loses nothing, invents nothing and reports just the characters at
fault and an open comment.
-/

namespace ChipLogic.Hdl

/-! ## Lexemes -/

/-- The stretch has a property, and no longer stretch of the text around it has. -/
structure Longest (P : List Char → Prop) (before inside after : List Char) : Prop where
  holds : P inside
  longest : ∀ l r, l <:+ before → r <+: after → P (l ++ (inside ++ r)) → l = [] ∧ r = []

/-- What a token is, in its place in a text. -/
inductive IsLexeme (before after : List Char) : Kind → List Char → Prop
  | word {w : List Char} (longest : Longest IsWord before w after) :
      IsLexeme before after (Kind.ofWord w) w
  | number {ds : List Char} (longest : Longest IsDigits before ds after) :
      IsLexeme before after .number ds
  | mark {c : Char} {kind : Kind} (mark : Kind.ofMark? c = some kind) :
      IsLexeme before after kind [c]
  | dots : IsLexeme before after .dotDot ['.', '.']
  | stray {c : Char} (stray : IsStray c after) : IsLexeme before after .invalid [c]

/-- Blanks and closed comments, in front of what comes after them. -/
inductive IsGap (after : List Char) : List Char → Prop
  | nil : IsGap after []
  | blank {c : Char} {cs : List Char} (space : isSpace c = true) (rest : IsGap after cs) :
      IsGap after (c :: cs)
  | comment {text cs : List Char} (comment : IsPiece (cs ++ after) (.comment text))
      (rest : IsGap after cs) : IsGap after (text ++ cs)

/-- The text ends in a block comment that nothing closes. -/
def EndsOpen (text : List Char) : Prop :=
  ∃ ps comment, Divides text (ps ++ [.openComment comment])

/-- A stretch of a text as a span. -/
def stretch (file : Option Nat) (before inside : List Char) : Span :=
  ⟨file, byteLength before, byteLength before + byteLength inside⟩

/-- The gap before the end of the text, in which the last comment may be open. -/
def IsLastGap (gap : List Char) : Prop :=
  IsGap [] gap ∨ ∃ closed comment, gap = closed ++ comment ∧ IsGap comment closed ∧
    IsPiece [] (.openComment comment)

/-- Nothing but blanks and comments lies between two offsets. Only before the end of the text the
last comment may be open. -/
def Between (text : List Char) (start stop : Nat) : Prop :=
  ∃ before gap after, text = before ++ (gap ++ after) ∧ byteLength before = start ∧
    byteLength (before ++ gap) = stop ∧ (IsGap after gap ∨ after = [] ∧ IsLastGap gap)

/-- The tokens and the faults are those of a text. -/
structure Lexed.Exact (file : Option Nat) (text : String) (l : Lexed) : Prop where
  /-- The last token, and no other, is the end of the text. -/
  last : ∃ inner, l.tokens = inner ++
      [⟨.endOfFile, "", ⟨file, text.utf8ByteSize, text.utf8ByteSize⟩⟩] ∧
    ∀ t ∈ inner, t.kind ≠ .endOfFile
  /-- Every other token is a lexeme where its span says. -/
  lexemes : ∀ t ∈ l.tokens, t.kind ≠ .endOfFile → t.span.start < t.span.stop ∧
    ∃ before after, text.toList = before ++ (t.text.toList ++ after) ∧
      t.span = stretch file before t.text.toList ∧ IsLexeme before after t.kind t.text.toList
  /-- The tokens come one after the other. -/
  order : l.tokens.Pairwise fun t u =>
    t.span.start < u.span.start ∧ t.span.stop ≤ u.span.start
  /-- Between a token and the one before it, or the start of the text, there are only blanks and
  comments. -/
  gaps : ∀ us u vs, l.tokens = us ++ u :: vs →
    Between text.toList ((us.getLast?.map (·.span.stop)).getD 0) u.span.start
  /-- Every fault is one of the lexer. -/
  codes : ∀ d ∈ l.faults, d.code = ⟨.error, 100⟩
  /-- There is a fault for each token that is invalid. -/
  faults : ¬ EndsOpen text.toList →
    l.faults.length = (l.tokens.filter (·.kind = .invalid)).length
  /-- There is one more if a comment is open. -/
  openFault : EndsOpen text.toList →
    l.faults.length = (l.tokens.filter (·.kind = .invalid)).length + 1

/-! ## As long as it can be -/

theorem IsWord.forall_isWordChar {cs : List Char} (h : IsWord cs) :
    cs ≠ [] ∧ ∀ c ∈ cs, isWordChar c = true := by
  cases cs with
  | nil => exact h.elim
  | cons c cs =>
    exact ⟨List.cons_ne_nil _ _,
      List.forall_mem_cons.2 ⟨Piece.isWordChar_of_isWordStart h.1, h.2⟩⟩

theorem IsWord.of_append {l m : List Char} (h : IsWord (l ++ m)) (hl : l ≠ []) : IsWord l := by
  cases l with
  | nil => exact absurd rfl hl
  | cons c l => exact ⟨h.1, fun x hx => h.2 x (List.mem_append_left _ hx)⟩

theorem IsDigits.of_append {l m : List Char} (h : IsDigits (l ++ m)) (hl : l ≠ []) : IsDigits l :=
  ⟨hl, fun c hc => h.2 c (List.mem_append_left _ hc)⟩

theorem StopsAt.isDigit {cs : List Char} (h : StopsAt isWordChar cs) : StopsAt Char.isDigit cs := by
  intro c hc
  have hword := h c hc
  simp only [isWordChar, Char.isAlphanum, Bool.or_eq_false_iff] at hword
  exact hword.1.2

theorem StopsAt.not_append {q : Char → Bool} {cs after : List Char} (h : StopsAt q (cs ++ after))
    (hne : cs ≠ []) (hq : ∀ c ∈ cs, q c = true) : False := by
  cases cs with
  | nil => exact hne rfl
  | cons c cs =>
    have hc : q c = false := h c rfl
    rw [hq c List.mem_cons_self] at hc
    cases hc

/-- A run of characters of a class is as long as it can be if nothing of its sort ends before it and
it stops after it. -/
theorem Longest.of_stopsAt {P : List Char → Prop} {q : Char → Bool} {before inside after : List Char}
    (hq : ∀ {cs}, P cs → cs ≠ [] ∧ ∀ c ∈ cs, q c = true)
    (happend : ∀ {l m}, P (l ++ m) → l ≠ [] → P l)
    (hleft : ∀ l, l ≠ [] → l <:+ before → P l → StopsAt q (inside ++ after))
    (hright : StopsAt q after) (h : P inside) : Longest P before inside after where
  holds := h
  longest := by
    intro l r hl hr hlong
    refine ⟨Classical.byContradiction fun hne => ?_, Classical.byContradiction fun hne => ?_⟩
    · exact (hleft l hne hl (happend hlong hne)).not_append (hq h).1 (hq h).2
    · obtain ⟨after', rfl⟩ := hr
      refine hright.not_append hne fun c hc => (hq hlong).2 c ?_
      exact List.mem_append_right _ (List.mem_append_right _ hc)

/-- No word and no number that ends before a place goes on after it. -/
structure Parted (before after : List Char) : Prop where
  word : ∀ l, l ≠ [] → l <:+ before → IsWord l → StopsAt isWordChar after
  digits : ∀ l, l ≠ [] → l <:+ before → IsDigits l → StopsAt Char.isDigit after

theorem Parted.start (after : List Char) : Parted [] after where
  word _ hne hl _ := absurd (List.suffix_nil.1 hl) hne
  digits _ hne hl _ := absurd (List.suffix_nil.1 hl) hne

theorem Parted.of_stopsAt {before after : List Char} (h : StopsAt isWordChar after) :
    Parted before after :=
  ⟨fun _ _ _ _ => h, fun _ _ _ _ => h.isDigit⟩

theorem mem_of_suffix_concat {l cs : List Char} {d : Char} (hne : l ≠ []) (h : l <:+ cs ++ [d]) :
    d ∈ l := by
  obtain ⟨t, ht⟩ := h
  rw [← List.dropLast_concat_getLast hne, ← List.append_assoc] at ht
  obtain ⟨-, hlast⟩ := List.append_inj' ht rfl
  exact (List.cons.inj hlast).1 ▸ List.getLast_mem hne

/-- No word and no number ends in any other character. -/
theorem Parted.of_concat {before after : List Char} {d : Char} (h : isWordChar d = false) :
    Parted (before ++ [d]) after where
  word l hne hl hw := by
    have hd := hw.forall_isWordChar.2 d (mem_of_suffix_concat hne hl)
    rw [h] at hd
    cases hd
  digits l hne hl hds := by
    have hd := Piece.isWordChar_of_isDigit (hds.2 d (mem_of_suffix_concat hne hl))
    rw [h] at hd
    cases hd

theorem Kind.isWordChar_of_ofMark? {c : Char} {kind : Kind} (h : Kind.ofMark? c = some kind) :
    isWordChar c = false := by
  unfold Kind.ofMark? at h
  split at h <;> simp_all [isWordChar, Char.isAlphanum]

theorem isWordChar_of_isSpace {c : Char} (h : isSpace c = true) : isWordChar c = false := by
  cases hw : isWordChar c with
  | false => rfl
  | true => rw [Piece.isSpace_eq_false hw] at h; cases h

theorem IsDigits.not_isWord {ds l : List Char} (h : IsDigits ds) (hl : l <:+ ds) : ¬ IsWord l := by
  intro hw
  cases l with
  | nil => exact hw
  | cons c l =>
    have hstart := hw.1
    rw [Piece.isWordStart_eq_false (h.2 c (hl.subset List.mem_cons_self))] at hstart
    cases hstart

/-- A word that ends in digits would have gone on before them. -/
theorem Parted.number {before ds after : List Char} (h : Parted before (ds ++ after))
    (hds : IsDigits ds) (hstop : StopsAt Char.isDigit after) : Parted (before ++ ds) after where
  digits _ _ _ _ := hstop
  word l _ hl hw := by
    exfalso
    rcases List.suffix_or_suffix_of_suffix hl (List.suffix_append before ds) with hs | hs
    · exact hds.not_isWord hs hw
    · obtain ⟨l', rfl⟩ := hs
      obtain ⟨t, ht⟩ := hl
      rw [← List.append_assoc] at ht
      have hl' : l' <:+ before := ⟨t, List.append_cancel_right ht⟩
      by_cases hnil : l' = []
      · subst hnil
        exact hds.not_isWord (List.suffix_refl _) hw
      · exact (h.word l' hnil hl' (hw.of_append hnil)).not_append hds.1 fun c hc =>
          Piece.isWordChar_of_isDigit (hds.2 c hc)

/-- **The next piece may start after any piece.** -/
theorem Parted.piece {before after : List Char} {p : Piece} (h : Parted before (p.text ++ after))
    (hp : IsPiece after p) : Parted (before ++ p.text) after := by
  cases hp with
  | blank space => exact .of_concat (isWordChar_of_isSpace space)
  | line inside stop =>
    refine .of_stopsAt fun c hc => ?_
    obtain rfl : c = '\n' := by simpa using stop c hc
    rfl
  | @block body first =>
    have hlast : before ++ Piece.text (.comment ('/' :: '*' :: (body ++ ['*', '/']))) =
        (before ++ '/' :: '*' :: (body ++ ['*'])) ++ ['/'] := by simp [Piece.text]
    rw [hlast]
    exact .of_concat rfl
  | openBlock never stop =>
    subst stop
    exact .of_stopsAt fun c hc => by cases hc
  | word word stop => exact .of_stopsAt stop
  | number digits stop => exact h.number digits stop
  | mark mark => exact .of_concat (Kind.isWordChar_of_ofMark? mark)
  | dots =>
    have hlast : before ++ Piece.text (.token .dotDot ['.', '.']) = (before ++ ['.']) ++ ['.'] := by
      simp [Piece.text]
    rw [hlast]
    exact .of_concat rfl
  | stray stray => exact .of_concat stray.word

theorem isLexeme_of_isPiece {before w after : List Char} {kind : Kind}
    (h : Parted before (w ++ after)) (hp : IsPiece after (.token kind w)) :
    IsLexeme before after kind w := by
  cases hp with
  | word word stop =>
    exact .word (.of_stopsAt IsWord.forall_isWordChar IsWord.of_append h.word stop word)
  | number digits stop =>
    exact .number (.of_stopsAt id IsDigits.of_append h.digits stop digits)
  | mark mark => exact .mark mark
  | dots => exact .dots
  | stray stray => exact .stray stray

/-! ## Tokens in a text -/

theorem IsGap.append {gap cs after : List Char} (h : IsGap (cs ++ after) gap) (h' : IsGap after cs) :
    IsGap after (gap ++ cs) := by
  induction h with
  | nil => exact h'
  | blank space rest ih => exact .blank space ih
  | comment comment rest ih =>
    rw [List.append_assoc]
    exact .comment (by rwa [List.append_assoc]) ih

/-- A token that is a stretch of a text. -/
def tokenAt (file : Option Nat) (before : List Char) (kind : Kind) (w : List Char) : Token :=
  ⟨kind, String.ofList w, stretch file before w⟩

/-- After `before`, these are the tokens of a text. -/
inductive Spread (file : Option Nat) : List Char → List Char → List Token → Prop
  | stop {before gap : List Char} (last : IsLastGap gap) :
      Spread file before gap
        [⟨.endOfFile, "", ⟨file, byteLength (before ++ gap), byteLength (before ++ gap)⟩⟩]
  | token {before gap w after : List Char} {kind : Kind} {ts : List Token}
      (clear : IsGap (w ++ after) gap) (lexeme : IsLexeme (before ++ gap) after kind w)
      (rest : Spread file (before ++ gap ++ w) after ts) :
      Spread file before (gap ++ (w ++ after)) (tokenAt file (before ++ gap) kind w :: ts)

variable {file : Option Nat}

/-- The gap since the last token grows by a blank or a comment until the next token comes. -/
theorem spread_tokensFrom {rest : List Char} {ps : List Piece} (h : Divides rest ps)
    {before gap : List Char} (hgap : IsGap rest gap) (hp : Parted (before ++ gap) rest) :
    Spread file before (gap ++ rest) (tokensFrom file (byteLength (before ++ gap)) ps) := by
  induction h generalizing before gap with
  | nil =>
    rw [List.append_nil]
    exact .stop (.inl hgap)
  | @cons after p ps head tail ih =>
    have hparted := hp.piece head
    -- a piece that is no token makes the gap longer
    have hskip : IsGap after p.text → Spread file before (gap ++ (p.text ++ after))
        (tokensFrom file (byteLength (before ++ gap) + byteLength p.text) ps) := by
      intro hpiece
      rw [← byteLength_append, List.append_assoc, ← List.append_assoc gap]
      exact ih (hgap.append hpiece) (by rwa [← List.append_assoc])
    cases p with
    | blank c =>
      cases head with
      | blank space => exact hskip (.blank space .nil)
    | comment text =>
      have hcomment : IsGap after (text ++ []) := .comment head .nil
      rw [List.append_nil] at hcomment
      exact hskip hcomment
    | openComment text =>
      obtain rfl : after = [] := by cases head with | openBlock never stop => exact stop
      obtain rfl : ps = [] := by rw [divides_iff.1 tail, Piece.split]
      rw [List.append_nil] at hgap
      have hlast : Spread file before (gap ++ text) _ := .stop (.inr ⟨gap, text, rfl, hgap, head⟩)
      simpa [tokensFrom, Piece.text, byteLength_append, Nat.add_assoc] using hlast
    | token kind w =>
      refine .token hgap (isLexeme_of_isPiece hp head) ?_
      have hnext := @ih (before ++ gap ++ w) [] .nil (by rwa [List.append_nil])
      rwa [List.append_nil, List.nil_append, byteLength_append] at hnext

theorem spread_lex (file : Option Nat) (text : String) :
    Spread file [] text.toList (lex file text).tokens :=
  spread_tokensFrom (Piece.divides_split text.toList) .nil (.start text.toList)

theorem IsLexeme.kind_ne_endOfFile {before after w : List Char} {kind : Kind}
    (h : IsLexeme before after kind w) : kind ≠ .endOfFile := by
  cases h with
  | word => exact Kind.ofWord_ne_endOfFile _
  | @mark c _ mark =>
    rintro rfl
    exact Kind.ofMark?_ne_endOfFile c mark
  | number | dots | stray => decide

theorem IsLexeme.ne_nil {before after w : List Char} {kind : Kind}
    (h : IsLexeme before after kind w) : w ≠ [] := by
  cases h with
  | word longest => exact longest.holds.forall_isWordChar.1
  | number longest => exact longest.holds.1
  | mark | dots | stray => exact List.cons_ne_nil _ _

namespace Spread

variable {before rest : List Char} {ts : List Token}

theorem last (h : Spread file before rest ts) :
    ∃ inner, ts = inner ++
        [⟨.endOfFile, "", ⟨file, byteLength (before ++ rest), byteLength (before ++ rest)⟩⟩] ∧
      ∀ t ∈ inner, t.kind ≠ .endOfFile := by
  induction h with
  | stop => exact ⟨[], rfl, List.forall_mem_nil _⟩
  | @token before gap w after kind ts clear lexeme rest ih =>
    obtain ⟨inner, rfl, hinner⟩ := ih
    refine ⟨tokenAt file (before ++ gap) kind w :: inner, ?_,
      List.forall_mem_cons.2 ⟨lexeme.kind_ne_endOfFile, hinner⟩⟩
    simp only [List.append_assoc, List.cons_append]

theorem lexemes (h : Spread file before rest ts) : ∀ t ∈ ts, t.kind ≠ .endOfFile →
    t.span.start < t.span.stop ∧ ∃ ahead after, before ++ rest = ahead ++ (t.text.toList ++ after) ∧
      t.span = stretch file ahead t.text.toList ∧ IsLexeme ahead after t.kind t.text.toList := by
  induction h with
  | stop => exact List.forall_mem_singleton.2 fun hk => absurd rfl hk
  | @token before gap w after kind ts clear lexeme rest ih =>
    refine List.forall_mem_cons.2 ⟨fun _ => ?_, by simpa only [List.append_assoc] using ih⟩
    have hlt := Nat.lt_add_of_pos_right (n := byteLength (before ++ gap)) (byteLength_pos lexeme.ne_nil)
    refine ⟨hlt, before ++ gap, after, ?_⟩
    simpa [tokenAt] using lexeme

/-- No token starts before the place after which it comes. -/
theorem le_start (h : Spread file before rest ts) :
    ∀ t ∈ ts, byteLength before ≤ t.span.start := by
  induction h with
  | @stop before gap last =>
    refine List.forall_mem_singleton.2 ?_
    show byteLength before ≤ byteLength (before ++ gap)
    rw [byteLength_append]
    exact Nat.le_add_right _ _
  | @token before gap w after kind ts clear lexeme rest ih =>
    have hgap : byteLength before ≤ byteLength (before ++ gap) := by
      rw [byteLength_append]
      exact Nat.le_add_right _ _
    refine List.forall_mem_cons.2 ⟨hgap, fun t ht => Nat.le_trans hgap (Nat.le_trans ?_ (ih t ht))⟩
    rw [byteLength_append (before ++ gap)]
    exact Nat.le_add_right _ _

theorem order (h : Spread file before rest ts) :
    ts.Pairwise fun t u => t.span.start < u.span.start ∧ t.span.stop ≤ u.span.start := by
  induction h with
  | stop => exact List.pairwise_singleton _ _
  | @token before gap w after kind ts clear lexeme rest ih =>
    refine List.pairwise_cons.2 ⟨fun u hu => ?_, ih⟩
    have hle := rest.le_start u hu
    have hpos := byteLength_pos lexeme.ne_nil
    rw [byteLength_append] at hle
    dsimp only [tokenAt, stretch]
    omega

theorem gaps (h : Spread file before rest ts) : ∀ us u vs, ts = us ++ u :: vs →
    Between (before ++ rest) ((us.getLast?.map (·.span.stop)).getD (byteLength before))
      u.span.start := by
  induction h with
  | @stop before gap last =>
    intro us u vs he
    obtain ⟨rfl, rfl, rfl⟩ : us = [] ∧ u = _ ∧ vs = [] := by
      cases us with
      | nil => simpa [eq_comm] using he
      | cons t us => simp at he
    exact ⟨before, gap, [], by simp, rfl, rfl, .inr ⟨rfl, last⟩⟩
  | @token before gap w after kind ts clear lexeme rest ih =>
    intro us u vs he
    cases us with
    | nil =>
      obtain ⟨rfl, -⟩ := List.cons.inj he
      exact ⟨before, gap, w ++ after, rfl, rfl, rfl, .inl clear⟩
    | cons t us =>
      obtain ⟨rfl, htail⟩ := List.cons.inj he
      have hnext := ih us u vs htail
      -- the token before `u` is the last of `us`, or the one just passed
      have hstop : ((((tokenAt file (before ++ gap) kind w) :: us).getLast?).map (·.span.stop)).getD
          (byteLength before) =
            (us.getLast?.map (·.span.stop)).getD (byteLength (before ++ gap ++ w)) := by
        rw [List.getLast?_cons, byteLength_append]
        cases us.getLast? <;> rfl
      rw [hstop]
      simpa only [List.append_assoc] using hnext

end Spread

/-! ## Faults -/

def Piece.isOpen : Piece → Bool
  | .openComment _ => true
  | _ => false

/-- Every fault is an invalid token or an open comment. -/
theorem length_faultsFrom (file : Option Nat) (offset : Nat) (ps : List Piece) :
    (faultsFrom file offset ps).length =
      ((tokensFrom file offset ps).filter (·.kind = .invalid)).length +
        (ps.filter Piece.isOpen).length := by
  fun_induction faultsFrom file offset ps with
  | case1 => rfl
  | case2 offset ps text stop ih =>
    simp only [stop, Piece.text] at ih ⊢
    simp [tokensFrom, Piece.isOpen, Piece.text, ih, Nat.add_right_comm]
  | case3 offset ps text stop ih =>
    simp only [stop, Piece.text] at ih ⊢
    simp [tokensFrom, List.filter_cons, Piece.isOpen, Piece.text, ih, Nat.add_assoc]
  | case4 offset piece ps stop hinvalid hopen ih =>
    rw [ih]
    cases piece with
    | token kind text =>
      have hkind : kind ≠ .invalid := fun h => hinvalid text (h ▸ rfl)
      simp [tokensFrom, Piece.isOpen, hkind, stop]
    | openComment text => exact absurd rfl (hopen text)
    | blank | comment => simp [tokensFrom, Piece.isOpen, stop]

/-- An open comment is the last piece. -/
theorem Divides.filter_isOpen {cs : List Char} {ps : List Piece} (h : Divides cs ps) :
    ps.filter Piece.isOpen = [] ∨
      ∃ qs comment, ps = qs ++ [.openComment comment] ∧ (ps.filter Piece.isOpen).length = 1 := by
  induction h with
  | nil => exact .inl rfl
  | @cons after p ps head tail ih =>
    cases p with
    | openComment text =>
      obtain rfl : after = [] := by cases head with | openBlock never stop => exact stop
      obtain rfl : ps = [] := by rw [divides_iff.1 tail, Piece.split]
      exact .inr ⟨[], text, rfl, rfl⟩
    | blank | comment | token =>
      refine ih.imp id fun h => ?_
      obtain ⟨qs, comment, he, hlength⟩ := h
      exact ⟨_ :: qs, comment, by rw [he]; rfl, hlength⟩

theorem Divides.isOpen_of_endsOpen {cs : List Char} {ps : List Piece} (h : Divides cs ps)
    (hopen : EndsOpen cs) : ps.filter Piece.isOpen ≠ [] := by
  obtain ⟨qs, comment, hqs⟩ := hopen
  rw [divides_iff.1 h, ← divides_iff.1 hqs]
  simp [Piece.isOpen]

theorem code_of_mem_faultsFrom {offset : Nat} {ps : List Piece} :
    ∀ d ∈ faultsFrom file offset ps, d.code = ⟨.error, 100⟩ := by
  fun_induction faultsFrom file offset ps with
  | case1 => exact List.forall_mem_nil _
  | case2 offset ps text stop ih => exact List.forall_mem_cons.2 ⟨rfl, ih⟩
  | case3 offset ps text stop ih => exact List.forall_mem_cons.2 ⟨rfl, ih⟩
  | case4 offset piece ps stop hinvalid hopen ih => exact ih

/-- **Lexing is exact.** -/
theorem lex_exact (file : Option Nat) (text : String) : (lex file text).Exact file text := by
  have hspread := spread_lex file text
  have hdivides := Piece.divides_split text.toList
  have hlength : (lex file text).faults.length =
      ((lex file text).tokens.filter (·.kind = .invalid)).length +
        ((Piece.split text.toList).filter Piece.isOpen).length := length_faultsFrom file 0 _
  have hsize : byteLength text.toList = text.utf8ByteSize := by
    rw [← byteLength_ofList, String.ofList_toList]
  refine ⟨?_, hspread.lexemes, hspread.order, hspread.gaps,
    code_of_mem_faultsFrom, fun hopen => ?_, fun hopen => ?_⟩
  · simpa [hsize] using hspread.last
  · rcases hdivides.filter_isOpen with hnone | ⟨qs, comment, he, -⟩
    · simpa [hnone] using hlength
    · exact absurd ⟨qs, comment, he ▸ hdivides⟩ hopen
  · rcases hdivides.filter_isOpen with hnone | ⟨qs, comment, -, hone⟩
    · exact absurd hnone (hdivides.isOpen_of_endsOpen hopen)
    · simpa [hone] using hlength

end ChipLogic.Hdl
