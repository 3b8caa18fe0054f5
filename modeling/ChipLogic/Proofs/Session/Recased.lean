import ChipLogic.Proofs.Session.Copy
import ChipLogic.Proofs.Session.Nets
import ChipLogic.Proofs.Source.Holds

/-!
# The two printed texts of a chip

A session prints a chip with its connections as they were written. A netlist prints the copy of the
chip from its wires, with pins as they are declared. **The two texts have the same length and differ
in nothing but the case of letters in the names of pins and nets in connections**
(`Session.Reachable.render_recased`).

To say which characters of a text belong to these names, the text is spelled out with a mark on each
of them (`Definition.letters`). Two texts of this form are compared from the names up to the chips,
by any relation that characters outside the names have to themselves (`Definition.rel_letters`).
With equality, this shows that the marked characters are the text (`Definition.map_char_letters`).
With equality up to case within names, it compares the text with the one from the wires, which
respells it (`Session.Copies.respells`).
-/

namespace ChipLogic

/-! ## Case and length -/

/-- Both cases of a letter have one byte. -/
theorem utf8Size_toLower (c : Char) : c.toLower.utf8Size = c.utf8Size := by
  by_cases h : c.val ≥ 'A'.val ∧ c.val ≤ 'Z'.val
  · have hcapital : c.utf8Size = 1 :=
      Char.utf8Size_eq_one_iff.2 (UInt32.le_trans h.2 (by decide))
    have hval : c.toLower.val = c.val + 32 := congrArg Char.val (dif_pos h)
    have hsmall : c.toLower.utf8Size = 1 := by
      rw [Char.utf8Size_eq_one_iff, hval, UInt32.le_iff_toNat_le]
      have hZ : c.val.toNat ≤ 90 := UInt32.le_iff_toNat_le.1 h.2
      have hadd : (c.val + 32).toNat ≤ c.val.toNat + 32 := Nat.mod_le _ _
      have hbound : c.val.toNat + 32 ≤ 127 := by omega
      exact hadd.trans hbound
    rw [hcapital, hsmall]
  · have hsame : c.toLower = c := dif_neg h
    rw [hsame]

theorem byteLength_map_toLower (cs : List Char) :
    byteLength (cs.map Char.toLower) = byteLength cs := by
  induction cs with
  | nil => rfl
  | cons c cs ih => rw [List.map_cons, byteLength, byteLength, utf8Size_toLower, ih]

/-! ## Marked characters -/

/-- A character of a printed chip. -/
structure Letter where
  char : Char
  /-- It belongs to the name of a pin or net in a list of connections. -/
  named : Bool
  deriving DecidableEq, Repr

namespace Letter

/-- The characters of a name in a connection. -/
def inside (name : String) : List Letter := name.toList.map (⟨·, true⟩)

/-- The characters of any other text. -/
def outside (text : String) : List Letter := text.toList.map (⟨·, false⟩)

/-- The character is the same, or the same up to case if it belongs to a name. -/
def Allows (l : Letter) (c : Char) : Prop :=
  l.char = c ∨ l.named = true ∧ l.char.toLower = c.toLower

end Letter

open Letter (inside outside)

def Reference.letters (r : Reference) : List Letter :=
  inside r.name ++ outside ((r.range.map BitRange.text).getD "")

def Connection.letters (c : Connection) : List Letter :=
  c.inner.letters ++ outside "=" ++ c.outer.letters

def Part.letters (p : Part) : List Letter :=
  outside s!"    {p.chip}(" ++ (outside ", ").intercalate (p.connections.map Connection.letters) ++
    outside ");\n"

/-- The text of a chip up to its parts. -/
def Definition.heading (d : Definition) : String :=
  (if d.gate.isSome then "// built-in\n" else "") ++
  s!"CHIP {d.name} \x7b\n" ++
  pinSection "IN" (d.pinsOf .input) ++
  pinSection "OUT" (d.pinsOf .output) ++
  "    PARTS:\n"

/-- The text of a chip, with marks on the characters of names in connections. -/
def Definition.letters (d : Definition) : List Letter :=
  outside d.heading ++ d.parts.toList.flatMap Part.letters ++ outside "\x7d\n"

/-! ## Texts that go together -/

theorem rel_intercalate {α β : Type} {R : α → β → Prop} {sep : List α} {sep' : List β}
    (hsep : List.Forall₂ R sep sep') {xss : List (List α)} {yss : List (List β)}
    (h : List.Forall₂ (List.Forall₂ R) xss yss) :
    List.Forall₂ R (sep.intercalate xss) (sep'.intercalate yss) := by
  induction h with
  | nil => exact .nil
  | cons hx hrest ih =>
    cases hrest with
    | nil => simpa using hx
    | cons hy hrest =>
      rw [List.intercalate_cons_cons, List.intercalate_cons_cons]
      exact List.rel_append (List.rel_append hx hsep) ih

section

variable {R : Letter → Char → Prop}

/-- The references are to the same bits, and the characters of the names go together. -/
structure Reference.Follows (R : Letter → Char → Prop) (r r' : Reference) : Prop where
  name : List.Forall₂ R (inside r.name) r'.name.toList
  range : r'.range = r.range

structure Connection.Follows (R : Letter → Char → Prop) (c c' : Connection) : Prop where
  inner : c.inner.Follows R c'.inner
  outer : c.outer.Follows R c'.outer

structure Part.Follows (R : Letter → Char → Prop) (p p' : Part) : Prop where
  chip : p'.chip = p.chip
  connections : List.Forall₂ (Connection.Follows R) p.connections p'.connections

variable (hR : ∀ c, R ⟨c, false⟩ c)
include hR

theorem rel_outside (text : String) : List.Forall₂ R (outside text) text.toList :=
  List.forall₂_map_left_iff.2 (List.forall₂_same.2 fun c _ => hR c)

theorem Reference.rel_letters {r r' : Reference} (h : r.Follows R r') :
    List.Forall₂ R r.letters r'.text.toList := by
  have htext : r'.text = r'.name ++ (r.range.map BitRange.text).getD "" := by
    rw [text, h.range]
    cases r.range <;> simp
  rw [htext, String.toList_append]
  exact List.rel_append h.name (rel_outside hR _)

theorem Connection.rel_letters {c c' : Connection} (h : c.Follows R c') :
    List.Forall₂ R c.letters (connectionText c'.inner c'.outer).toList := by
  rw [connectionText, String.toList_append, String.toList_append]
  exact List.rel_append (List.rel_append (Reference.rel_letters hR h.inner) (rel_outside hR "="))
    (Reference.rel_letters hR h.outer)

theorem Part.rel_letters {p p' : Part} (h : p.Follows R p') :
    List.Forall₂ R p.letters
      (partLine p'.chip (p'.connections.map fun c => connectionText c.inner c.outer)).toList := by
  have hlist : List.Forall₂ R ((outside ", ").intercalate (p.connections.map Connection.letters))
      (", ".intercalate (p'.connections.map fun c => connectionText c.inner c.outer)).toList := by
    rw [String.toList_intercalate, List.map_map]
    refine rel_intercalate (rel_outside hR ", ") ?_
    rw [List.forall₂_map_left_iff, List.forall₂_map_right_iff]
    exact h.connections.imp fun _ _ hc => Connection.rel_letters hR hc
  have hline : ∀ list, partLine p'.chip list =
      s!"    {p.chip}(" ++ ", ".intercalate list ++ ");\n" := by
    intro list
    rw [partLine, h.chip]
    simp [toString]
  rw [hline, String.toList_append, String.toList_append]
  exact List.rel_append (List.rel_append (rel_outside hR _) hlist) (rel_outside hR _)

/-- **What names have in common, texts have in common.** -/
theorem Definition.rel_letters {d d' : Definition} (hname : d'.name = d.name)
    (hgate : d'.gate = d.gate) (hpins : d'.pins = d.pins)
    (hparts : List.Forall₂ (Part.Follows R) d.parts.toList d'.parts.toList) :
    List.Forall₂ R d.letters d'.render.toList := by
  have htext : d'.render = d.heading ++ String.join (d'.parts.toList.map fun p =>
      partLine p.chip (p.connections.map fun c => connectionText c.inner c.outer)) ++ "\x7d\n" := by
    rw [render, chipText, hname, hgate, hpins]
    rfl
  rw [htext, String.toList_append, String.toList_append, String.toList_join, List.flatMap_map]
  refine List.rel_append (List.rel_append (rel_outside hR _) ?_) (rel_outside hR _)
  exact List.rel_flatMap hparts fun _ _ hp => Part.rel_letters hR hp

end

namespace Definition

variable {d d' : Definition}

/-- The marked characters are the text. -/
theorem map_char_letters (d : Definition) : d.letters.map Letter.char = d.render.toList := by
  have hname : ∀ name : String,
      List.Forall₂ (fun (l : Letter) c => l.char = c) (inside name) name.toList := by
    intro name
    exact List.forall₂_map_left_iff.2 (List.forall₂_same.2 fun _ _ => rfl)
  have hparts : List.Forall₂ (Part.Follows fun l c => l.char = c) d.parts.toList
      d.parts.toList := by
    refine List.forall₂_same.2 fun p _ => ⟨rfl, List.forall₂_same.2 fun c _ => ?_⟩
    exact ⟨⟨hname _, rfl⟩, ⟨hname _, rfl⟩⟩
  have hsame := rel_letters (fun _ => rfl) rfl rfl rfl hparts
  rwa [← List.forall₂_map_left_iff, List.forall₂_eq_eq_eq] at hsame

/-- The text is the one of the chip but for the case of letters of names in connections. -/
structure Recased (d : Definition) (text : String) : Prop where
  length : text.length = d.render.length
  size : text.utf8ByteSize = d.render.utf8ByteSize
  letters : ∀ (i : Nat) (a b : Char), d.render.toList[i]? = some a → text.toList[i]? = some b →
    a ≠ b → d.letters[i]? = some ⟨a, true⟩ ∧ a.toLower = b.toLower

theorem Recased.of_allows {text : String}
    (h : List.Forall₂ Letter.Allows d.letters text.toList) : d.Recased text := by
  have hlower : d.render.toList.map Char.toLower = text.toList.map Char.toLower := by
    rw [← map_char_letters, List.map_map, ← List.forall₂_eq_eq_eq, List.forall₂_map_left_iff,
      List.forall₂_map_right_iff]
    refine h.imp fun l c hl => ?_
    rcases hl with hsame | ⟨-, hcase⟩
    · exact congrArg Char.toLower hsame
    · exact hcase
  have hsize : ∀ t : String, t.utf8ByteSize = byteLength (t.toList.map Char.toLower) := by
    intro t
    rw [byteLength_map_toLower, ← byteLength_ofList, String.ofList_toList]
  refine ⟨?_, by rw [hsize, hsize, hlower], fun i a b ha hb hne => ?_⟩
  · have hlength := congrArg List.length hlower
    rw [List.length_map, List.length_map, String.length_toList, String.length_toList] at hlength
    exact hlength.symm
  · obtain ⟨l, hl, hallows⟩ := Session.getElem?_of_forall₂ h hb
    rw [← map_char_letters, List.getElem?_map, hl, Option.map_some, Option.some.injEq] at ha
    subst ha
    rcases hallows with hsame | ⟨hnamed, hcase⟩
    · exact absurd hsame hne
    · exact ⟨by rw [hl, ← hnamed], hcase⟩

/-- Names of one key differ in case. -/
theorem rel_inside {n n' : String} (h : foldCase n' = foldCase n) :
    List.Forall₂ Letter.Allows (inside n) n'.toList := by
  have hlower : n.toList.map Char.toLower = n'.toList.map Char.toLower := by
    rw [← toList_foldCase, ← toList_foldCase, h]
  rw [← List.forall₂_eq_eq_eq, List.forall₂_map_left_iff, List.forall₂_map_right_iff] at hlower
  exact List.forall₂_map_left_iff.2 (hlower.imp fun _ _ hcase => .inr ⟨rfl, hcase⟩)

/-- **A chip in another spelling has the same text up to case.** -/
theorem Respells.recased (h : d.Respells d') : d.Recased d'.render := by
  refine .of_allows (rel_letters (fun _ => .inl rfl) h.name h.gate h.pins ?_)
  refine h.parts.imp fun p p' hp => ⟨hp.chip, hp.connections.imp fun c c' hc => ?_⟩
  exact ⟨⟨rel_inside hc.inner, hc.innerRange⟩, ⟨rel_inside hc.outer, hc.outerRange⟩⟩

end Definition

/-! ## Frozen chips -/

namespace Session

variable {s s' : Session} {net : Netlist} {top : Nat}

/-- **The two texts of a chip agree.** A frozen netlist is a copy of chips of the session, now and
at any later time, and the text of each of its chips is the text of the chip that it was copied from
up to the case of names in connections. -/
theorem Reachable.render_recased (h : s.Reachable) (hf : (s.freeze top).1 = .ok (some net))
    (hl : Later (s.freeze top).2 s') :
    ∃ order, net.CopyOf s'.view? s'.Contains top order ∧
      ∀ id c, net.chip? id = some c → ∃ (x : Nat) (d : Definition) (text : String),
        order[id]? = some x ∧ s'.definition? x = some d ∧ net.render? id = some text ∧
          d.Recased text := by
  obtain ⟨order, hfrozen⟩ := h.sound.exists_frozen hf
  have hwell := h.sound.netlist_sound hf
  have hdrawn := ((h.freeze top).later hl).drawnAs_any
  have hlater := hfrozen.later hl
  refine ⟨order, hlater.copyOf, fun id c hc => ?_⟩
  obtain ⟨x, d, hx, hcopied⟩ := hlater.copies.copied hc
  exact ⟨x, d, _, hx, hcopied.definition, hwell.render?_eq hc,
    (hlater.copies.respells hwell hdrawn hc hcopied).recased⟩

/-- Connections name pins and nets in another case than their declarations and each other. -/
def shouted : Session :=
  (Session.addSource { disk := .empty } "Top.hdl"
    ("CHIP Top\x7bIN a[2];OUT y;PARTS:Inner(X=A[1],y=Mid);Not(In=mID,out=Y);\x7d" ++
      "CHIP Inner\x7bIN x;OUT Y;PARTS:Not(in=X,out=y);\x7d")).2

theorem reachable_shouted : shouted.Reachable := .addSource _ _ (.start .empty none)

/-- The net `Mid` and the pins of the two parts are printed in two ways. -/
theorem Reachable.render_recased_shouted :
    ∃ net d text, (shouted.freeze 0).1 = .ok (some net) ∧
      (shouted.freeze 0).2.definition? 0 = some d ∧ net.render? 0 = some text ∧
      d.render = "CHIP Top \x7b\n    IN a[2];\n    OUT y;\n    PARTS:\n" ++
        "    Inner(X=A[1], y=Mid);\n    Not(In=mID, out=Y);\n\x7d\n" ∧
      text = "CHIP Top \x7b\n    IN a[2];\n    OUT y;\n    PARTS:\n" ++
        "    Inner(x=a[1], Y=Mid);\n    Not(in=Mid, out=y);\n\x7d\n" ∧
      d.Recased text := by
  have hruns : (shouted.freeze 0).1.toOption.join.isSome ∧
      (shouted.freeze 0).1.toOption.join.bind (·.render? 0) =
        some ("CHIP Top \x7b\n    IN a[2];\n    OUT y;\n    PARTS:\n" ++
          "    Inner(x=a[1], Y=Mid);\n    Not(in=Mid, out=y);\n\x7d\n") ∧
      ((shouted.freeze 0).2.definition? 0).map Definition.render =
        some ("CHIP Top \x7b\n    IN a[2];\n    OUT y;\n    PARTS:\n" ++
          "    Inner(X=A[1], y=Mid);\n    Not(In=mID, out=Y);\n\x7d\n") := by
    decide +kernel
  obtain ⟨hsome, hwired, hwritten⟩ := hruns
  obtain ⟨net, hnet⟩ := exists_netlist_of_isSome hsome
  rw [hnet] at hwired
  obtain ⟨d, hd, hrender⟩ := Option.map_eq_some_iff.1 hwritten
  obtain ⟨order, hcopy, htexts⟩ := reachable_shouted.render_recased hnet .refl
  obtain ⟨c, -, hc, -⟩ := hcopy.chip 0 0 hcopy.first
  obtain ⟨x, d', text, hx, hd', htext, hrecased⟩ := htexts 0 c hc
  obtain rfl : 0 = x := Option.some.inj (hcopy.first.symm.trans hx)
  obtain rfl : d = d' := Option.some.inj (hd.symm.trans hd')
  have htext' := Option.some.inj (htext.symm.trans hwired)
  exact ⟨net, d, text, hnet, hd, htext, hrender, htext', hrecased⟩

end Session

end ChipLogic
