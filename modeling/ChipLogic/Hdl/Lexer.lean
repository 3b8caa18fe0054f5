import ChipLogic.Hdl.Fault
import ChipLogic.Hdl.Piece
import ChipLogic.Text.Offset

/-!
# Lexing

The tokens of a text are its token pieces with their byte spans, and a token for the end of the
text after them. A character that starts no token and a comment that nothing closes are faults.

A text is taken to be shorter than `2 ^ 32` bytes, so that its offsets fit into the spans that are
stored (`Span`).
-/

namespace ChipLogic.Hdl

/-- The tokens among pieces that start at an offset. -/
def tokensFrom (file : Option Nat) (offset : Nat) : List Piece → List Token
  | [] => [⟨.endOfFile, "", ⟨file, offset, offset⟩⟩]
  | piece :: pieces =>
    let stop := offset + byteLength piece.text
    match piece with
    | .token kind text =>
      ⟨kind, String.ofList text, ⟨file, offset, stop⟩⟩ :: tokensFrom file stop pieces
    | _ => tokensFrom file stop pieces

/-- The faults among pieces that start at an offset. -/
def faultsFrom (file : Option Nat) (offset : Nat) : List Piece → List Diagnostic
  | [] => []
  | piece :: pieces =>
    let stop := offset + byteLength piece.text
    match piece with
    | .token .invalid _ =>
      Fault.strayCharacter.report ⟨file, offset, stop⟩ :: faultsFrom file stop pieces
    | .openComment _ =>
      Fault.openComment.report ⟨file, offset, stop⟩ :: faultsFrom file stop pieces
    | _ => faultsFrom file stop pieces

/-- The outcome of lexing. The last token is the end of the text. -/
structure Lexed where
  tokens : List Token
  faults : List Diagnostic

/-- Lexes the text of a file. -/
def lex (file : Option Nat) (text : String) : Lexed :=
  let pieces := Piece.split text.toList
  ⟨tokensFrom file 0 pieces, faultsFrom file 0 pieces⟩

end ChipLogic.Hdl
