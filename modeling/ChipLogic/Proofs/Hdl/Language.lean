import ChipLogic.Proofs.Hdl.Splitting

/-!
# The language of chip descriptions

What a text says depends on its **words**, the kinds and texts of its tokens. The grammar tells
which words say what:

```text
file    ::= chip*
chip    ::= 'CHIP' Name '{' section* parts '}'
section ::= ('IN' | 'OUT') pin (',' pin)* ';'
parts   ::= ('PARTS' ':' part*)?
pin     ::= Name ('[' Number ']')?
part    ::= Name '(' (binding (',' binding)*)? ')' ';'
binding ::= ref '=' ref
ref     ::= Name ('[' Number ('..' Number)? ']')?
```

Each line is a relation between words and the **bare** node they stand for, that is, a node without
places. A number is written in decimal digits and is below 2^32. One number in brackets after a name
on either side of a binding is a range of one bit.

The grammar knows nothing of cursors, faults and recovery. A text without stray characters and open
comments whose words make a file **declares** the chips of that file (`Declares`).
-/

namespace ChipLogic.Hdl

/-! ## Words -/

/-- The kind and the text of a token. -/
abbrev Word := Kind × String

/-- The word of a token piece. -/
def Piece.token? : Piece → Option Word
  | .token kind text => some (kind, String.ofList text)
  | _ => none

/-- The words among pieces. -/
def words (ps : List Piece) : List Word := ps.filterMap Piece.token?

theorem words_append (ps qs : List Piece) : words (ps ++ qs) = words ps ++ words qs :=
  List.filterMap_append

/-- The kind of the first word. -/
def nextKind : List Word → Kind
  | [] => .endOfFile
  | w :: _ => w.1

/-! ## Bare nodes -/

def PinNode.bare (p : PinNode) : PinNode := { p with span := .nowhere }

def RangeNode.bare (r : RangeNode) : RangeNode := { r with span := .nowhere }

def RefNode.bare (r : RefNode) : RefNode := ⟨r.name, r.range.map RangeNode.bare, .nowhere⟩

def BindingNode.bare (b : BindingNode) : BindingNode := ⟨b.inner.bare, b.outer.bare, .nowhere⟩

def PartNode.bare (p : PartNode) : PartNode := ⟨p.chip, p.bindings.map BindingNode.bare, .nowhere⟩

def ChipNode.bare (c : ChipNode) : ChipNode :=
  ⟨c.name, .nowhere, c.inputs.map PinNode.bare, c.outputs.map PinNode.bare,
    c.parts.map PartNode.bare, .nowhere⟩

def Item.bare : Item → Item
  | .chip node => .chip node.bare
  | .skipped _ => .skipped .nowhere

/-! ## Repetition -/

section

variable {α : Type} (P : List Word → α → Prop)

/-- Any number of constructs, one after another. -/
inductive Star : List Word → List α → Prop
  | nil : Star [] []
  | cons {ws vs : List Word} {x : α} {xs : List α} (head : P ws x) (tail : Star vs xs) :
      Star (ws ++ vs) (x :: xs)

/-- One or more constructs with commas between them. -/
inductive Listed : List Word → List α → Prop
  | one {ws : List Word} {x : α} (head : P ws x) : Listed ws [x]
  | more {ws vs : List Word} {comma : String} {x : α} {xs : List α} (head : P ws x)
      (tail : Listed vs xs) : Listed (ws ++ (.comma, comma) :: vs) (x :: xs)

variable {P}

theorem Star.append {us vs : List Word} {xs ys : List α} (h : Star P us xs) (h' : Star P vs ys) :
    Star P (us ++ vs) (xs ++ ys) := by
  induction h with
  | nil => exact h'
  | cons head tail ih =>
    rw [List.append_assoc]
    exact .cons head ih

end

/-! ## The grammar -/

/-- The text is a decimal numeral for `n`, which is below 2^32. -/
structure IsNumber (text : String) (n : Nat) : Prop where
  ne_nil : text.toList ≠ []
  digits : ∀ c ∈ text.toList, c.isDigit = true
  value : Nat.ofDigitChars 10 text.toList 0 = n
  small : n < UInt32.size

inductive IsWidth : List Word → Option Nat → Prop
  | none : IsWidth [] none
  | some {a b numeral : String} {n : Nat} (number : IsNumber numeral n) :
      IsWidth [(.leftBracket, a), (.number, numeral), (.rightBracket, b)] (some n)

inductive IsPin : List Word → PinNode → Prop
  | mk {name : String} {ws : List Word} {width : Option Nat} (tail : IsWidth ws width) :
      IsPin ((.identifier, name) :: ws) ⟨name, width, .nowhere⟩

inductive IsRange : List Word → Option RangeNode → Prop
  | none : IsRange [] none
  | bit {a b numeral : String} {n : Nat} (number : IsNumber numeral n) :
      IsRange [(.leftBracket, a), (.number, numeral), (.rightBracket, b)] (some ⟨n, n, .nowhere⟩)
  | bits {a b c numeral numeral' : String} {first last : Nat} (lower : IsNumber numeral first)
      (upper : IsNumber numeral' last) :
      IsRange [(.leftBracket, a), (.number, numeral), (.dotDot, b), (.number, numeral'),
        (.rightBracket, c)] (some ⟨first, last, .nowhere⟩)

inductive IsRef : List Word → RefNode → Prop
  | mk {name : String} {ws : List Word} {range : Option RangeNode} (tail : IsRange ws range) :
      IsRef ((.identifier, name) :: ws) ⟨name, range, .nowhere⟩

inductive IsBinding : List Word → BindingNode → Prop
  | mk {a : String} {us vs : List Word} {inner outer : RefNode} (left : IsRef us inner)
      (right : IsRef vs outer) :
      IsBinding (us ++ (.equals, a) :: vs) ⟨inner, outer, .nowhere⟩

inductive IsArguments : List Word → List BindingNode → Prop
  | none : IsArguments [] []
  | some {ws : List Word} {bindings : List BindingNode} (all : Listed IsBinding ws bindings) :
      IsArguments ws bindings

inductive IsPart : List Word → PartNode → Prop
  | mk {a b c chip : String} {ws : List Word} {bindings : List BindingNode}
      (arguments : IsArguments ws bindings) :
      IsPart ((.identifier, chip) :: (.leftParen, a) ::
        (ws ++ [(.rightParen, b), (.semicolon, c)])) ⟨chip, bindings, .nowhere⟩

inductive IsSection : List Word → Sections → Prop
  | inputs {a b : String} {ws : List Word} {pins : List PinNode} (all : Listed IsPin ws pins) :
      IsSection ((.input, a) :: (ws ++ [(.semicolon, b)])) { inputs := pins }
  | outputs {a b : String} {ws : List Word} {pins : List PinNode} (all : Listed IsPin ws pins) :
      IsSection ((.output, a) :: (ws ++ [(.semicolon, b)])) { outputs := pins }

inductive IsParts : List Word → List PartNode → Prop
  | none : IsParts [] []
  | some {a b : String} {ws : List Word} {parts : List PartNode} (all : Star IsPart ws parts) :
      IsParts ((.parts, a) :: (.colon, b) :: ws) parts

/-- The pins of a chip are those of all its sections of a kind. -/
inductive IsChip : List Word → ChipNode → Prop
  | mk {a b c name : String} {us vs : List Word} {sections : List Sections} {parts : List PartNode}
      (pins : Star IsSection us sections) (last : IsParts vs parts) :
      IsChip ((.chip, a) :: (.identifier, name) :: (.leftBrace, b) ::
        (us ++ (vs ++ [(.rightBrace, c)])))
        ⟨name, .nowhere, sections.flatMap Sections.inputs, sections.flatMap Sections.outputs, parts,
          .nowhere⟩

/-! ## Numbers -/

theorem digitIn?_ten (c : Char) :
    Numeral.digitIn? 10 c = if c.isDigit then some (c.toNat - '0'.toNat) else none := by
  have h0 : '0'.toNat = 48 := rfl
  have h9 : '9'.toNat = 57 := rfl
  have hiff : c.isDigit = true ↔ '0' ≤ c ∧ c ≤ '9' := by
    simp only [Char.isDigit, Bool.and_eq_true, decide_eq_true_eq]
    exact Iff.rfl
  unfold Numeral.digitIn? Numeral.digit?
  by_cases hc : '0' ≤ c ∧ c ≤ '9'
  · have hlt : c.toNat - '0'.toNat < 10 := by
      have : c.toNat ≤ '9'.toNat := hc.2
      omega
    rw [if_pos hc, if_pos (hiff.2 hc)]
    simpa using hlt
  · rw [if_neg hc, if_neg fun h => hc (hiff.1 h)]
    -- a letter stands for ten or more
    split
    · simp
    · split <;> simp

theorem readOnto_ten_eq_some_iff {cs : List Char} {value n : Nat} :
    Numeral.readOnto 10 value cs = some n ↔
      (∀ c ∈ cs, c.isDigit = true) ∧ Nat.ofDigitChars 10 cs value = n := by
  induction cs generalizing value with
  | nil => simp [Numeral.readOnto]
  | cons c cs ih =>
    by_cases hc : c.isDigit = true
    · simp [Numeral.readOnto, digitIn?_ten, hc, ih, Nat.ofDigitChars, Nat.mul_comm]
    · simp [Numeral.readOnto, digitIn?_ten, hc]

/-- The numerals are the texts that are read as numbers. -/
theorem isNumber_iff {text : String} {n : Nat} : IsNumber text n ↔
    (Numeral.read? 10 text.toList).filter (· < UInt32.size) = some n := by
  have hread : text.toList ≠ [] →
      Numeral.read? 10 text.toList = Numeral.readOnto 10 0 text.toList := by
    intro hne
    unfold Numeral.read?
    split
    · contradiction
    · rfl
  rw [Option.filter_eq_some_iff]
  constructor
  · intro h
    rw [hread h.ne_nil, readOnto_ten_eq_some_iff]
    exact ⟨⟨h.digits, h.value⟩, decide_eq_true h.small⟩
  · rintro ⟨hn, hlt⟩
    have hne : text.toList ≠ [] := by
      intro he
      rw [he] at hn
      cases hn
    rw [hread hne, readOnto_ten_eq_some_iff] at hn
    exact ⟨hne, hn.1, hn.2, of_decide_eq_true hlt⟩

/-! ## Texts -/

/-- The text has no lexical fault, and its words are those of a file with the given chips. -/
structure Declares (text : String) (chips : List ChipNode) : Prop where
  fine : ∀ p ∈ Piece.split text.toList, p.isFine
  file : Star IsChip (words (Piece.split text.toList)) chips

end ChipLogic.Hdl
