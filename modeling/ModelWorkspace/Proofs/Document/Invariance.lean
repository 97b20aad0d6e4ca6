import ModelWorkspace.Document.Basic
import ModelWorkspace.Proofs.Element.Unplaced
import ModelWorkspace.Proofs.Token.CarriageReturns
import ModelWorkspace.Proofs.Token.FinalNewline
import ModelWorkspace.Proofs.Tree.Simulation

/-!
# What does not change a document

Three changes to a text that are not to change its meaning.  Lines that are blank or hold a
comment only may be inserted everywhere (`ofText_insert`), and line feeds may be written with
carriage returns in front of them (`ofText_withReturns`).  A line end at the end of a text may
be left out as far as the root element is concerned; but a key that the text ends in, within a
block, is then reported for the want of a value, and that is all that changes
(`ofText_newline`).

In all cases the tokens of the texts are alike, so they are read in the same way, and their
trees have the same core, of which the root element is made.
-/

namespace ModelWorkspace
namespace Document

open Grammar

/-- What is read of a text. -/
def reading (text : String) : Reading (tokenize false text).tokens :=
  (fileMembers (byteWidth text.toList) .never 0 (tokenize false text).tokens).toReading

/-- What is reported when the root element of a text is made. -/
def loweringErrors (text : String) : List SyntaxError :=
  (Lowering.root (Outline.ofTree (.node .sourceFile (reading text).trees))).2

theorem syntaxErrors_ofText (text : String) :
    (ofText text).syntaxErrors = (reading text).errors ++ loweringErrors text := rfl

theorem lexErrors_ofText (text : String) :
    (ofText text).lexErrors = (tokenize false text).errors := rfl

/-- Of texts that are read in the same way the same root element is made. -/
theorem root_of_agrees {excuse : Prop} {ending : Ending} {text text' : String}
    (h : Agrees excuse ending (reading text) (reading text')) :
    (ofText text).root.map Element.unplaced = (ofText text').root.map Element.unplaced ∧
      (loweringErrors text).map SyntaxError.message =
        (loweringErrors text').map SyntaxError.message :=
  Lowering.root_of_core .sourceFile h.core_eq

/-! ## Blank lines and comments -/

/-- Lines that are blank or hold a comment only are invisible: wherever one is inserted between
the lines of a text, the document has the same root element but for the places, and the same
messages are reported in the same order. -/
theorem ofText_insert {before line : String} (after : String)
    (hbefore : before.toList = [] ∨ before.toList.getLast? = some '\n')
    (hline : Layout.IsBlankLine line.toList) :
    let plain := ofText (before ++ after)
    let inserted := ofText (before ++ (line ++ after))
    plain.root.map Element.unplaced = inserted.root.map Element.unplaced ∧
      plain.lexErrors.map LexError.message = inserted.lexErrors.map LexError.message ∧
      plain.syntaxErrors.map SyntaxError.message =
        inserted.syntaxErrors.map SyntaxError.message := by
  obtain ⟨halike, hreports⟩ := tokenize_insert after hbefore hline
  have hagrees : Agrees True .same (reading (before ++ after))
      (reading (before ++ (line ++ after))) :=
    agrees_fileMembers 0 halike (fun _ => trivial) fun heq => by cases heq
  obtain ⟨hroot, hlowered⟩ := root_of_agrees hagrees
  refine ⟨hroot, hreports, ?_⟩
  cases hagrees with
  | inStep hstep =>
      rw [syntaxErrors_ofText, syntaxErrors_ofText, List.map_append, List.map_append, hstep.errors]
      exact congrArg _ hlowered
  | behind only => cases only
  | lost only => cases only

/-- A comment between a key and the block that it indents, at a column that no line has, in a
text with errors. -/
theorem ofText_insert_comment :
    let before := "entity:\n"
    let line := "\t # b: [\r\n"
    let after := "    id: A\n    superEntities: [B\n  e"
    let inserted := ofText (before ++ (line ++ after))
    (before.toList = [] ∨ before.toList.getLast? = some '\n') ∧
      Layout.IsBlankLine line.toList ∧
      ((inserted.root.map Element.unplaced).map fun root =>
        (root.kind, root.id, root.references.map (·.text))) = some (.entity, some "A", ["B"]) ∧
      inserted.syntaxErrors.map SyntaxError.message =
        ["expected ']'", "expected ':' after property name"] := by
  have hbefore : "entity:\n".toList = [] ∨ "entity:\n".toList.getLast? = some '\n' := .inr rfl
  have hline : Layout.IsBlankLine "\t # b: [\r\n".toList :=
    ⟨['\t', ' '], ['#', ' ', 'b', ':', ' ', '['], ['\r', '\n'], rfl, by simp [Scan.isBlank],
      .inr ⟨_, rfl, by simp [Scan.isCommentPart]⟩, .inr rfl⟩
  obtain ⟨hroot, -, herrors⟩ :=
    ofText_insert "    id: A\n    superEntities: [B\n  e" hbefore hline
  refine ⟨hbefore, hline, ?_, ?_⟩
  · rw [← hroot]
    decide +kernel
  · rw [← herrors]
    decide +kernel

/-! ## Carriage returns -/

/-- The document of a text whose tokens are alike is the same but for the places. -/
theorem same_of_alike {text text' : String}
    (h : Alike .same (tokenize false text).tokens (tokenize false text').tokens) :
    (ofText text).root.map Element.unplaced = (ofText text').root.map Element.unplaced ∧
      (ofText text).syntaxErrors.map SyntaxError.message =
        (ofText text').syntaxErrors.map SyntaxError.message := by
  have hagrees : Agrees True .same (reading text) (reading text') :=
    agrees_fileMembers 0 h (fun _ => trivial) fun heq => by cases heq
  obtain ⟨hroot, hlowered⟩ := root_of_agrees hagrees
  refine ⟨hroot, ?_⟩
  cases hagrees with
  | inStep hstep =>
      rw [syntaxErrors_ofText, syntaxErrors_ofText, List.map_append, List.map_append, hlowered,
        hstep.errors]
  | behind only => cases only
  | lost only => cases only

/-- A carriage return in front of each line feed changes nothing but places, in a text that has
none yet and no line that ends in a backslash: the document has the same root element, and the
same messages are reported in the same order. -/
theorem ofText_withReturns {text : String} (hreturns : '\r' ∉ text.toList)
    (hbackslashes : ¬ ['\\', '\n'] <:+: text.toList) :
    let plain := ofText text
    let returned := ofText (withReturns text)
    plain.root.map Element.unplaced = returned.root.map Element.unplaced ∧
      plain.lexErrors.map LexError.message = returned.lexErrors.map LexError.message ∧
      plain.syntaxErrors.map SyntaxError.message =
        returned.syntaxErrors.map SyntaxError.message := by
  obtain ⟨halike, hreports⟩ := tokenize_withReturns ⟨hreturns, hbackslashes⟩
  obtain ⟨hroot, herrors⟩ := same_of_alike halike
  dsimp only
  rw [lexErrors_ofText, lexErrors_ofText]
  exact ⟨hroot, hreports, herrors⟩

/-- A text with a string that is not closed, a comment, an inline list that is cut off, and a
line at a column that is not open. -/
def brokenText : String :=
  "entity:\n    name: \"A\n    id: B # b\n  superEntities: [C\n"

theorem ofText_withReturns_broken :
    let returned := ofText (withReturns brokenText)
    '\r' ∉ brokenText.toList ∧ ¬ ['\\', '\n'] <:+: brokenText.toList ∧
      ((returned.root.map Element.unplaced).map fun root =>
        (root.kind, root.id, root.references.map (·.text))) = some (.entity, some "B", ["C"]) ∧
      returned.syntaxErrors.map SyntaxError.message =
        ["expected a value or a nested block", "expected ']'"] := by
  have hreturns : '\r' ∉ brokenText.toList := by decide +kernel
  have hbackslashes : ¬ ['\\', '\n'] <:+: brokenText.toList := by decide +kernel
  obtain ⟨hroot, -, herrors⟩ := ofText_withReturns hreturns hbackslashes
  refine ⟨hreturns, hbackslashes, ?_, ?_⟩
  · rw [← hroot]
    decide +kernel
  · rw [← herrors]
    decide +kernel

/-! ## The line end at the end of a text -/

theorem hasErrors_eq_false_iff (d : Document) :
    d.hasErrors = false ↔ d.lexErrors = [] ∧ d.syntaxErrors = [] := by
  simp [hasErrors]

/-- A text ends in a key within a block if a colon is the last of its tokens, but for blanks,
comments and the ends of blocks, and a block is open there. -/
def EndsInKey (text : String) : Prop :=
  Grammar.EndsInKey (tokenize false text).tokens

theorem excused_newline {text : String}
    (h : ∀ c ∈ text.toList.getLast?, Layout.isLineEnd c = false) :
    let plain := ofText text
    let ended := ofText (text ++ "\n")
    plain.root.map Element.unplaced = ended.root.map Element.unplaced ∧
      plain.lexErrors = ended.lexErrors ∧
      Excused (EndsInKey text) plain.syntaxErrors ended.syntaxErrors := by
  obtain ⟨⟨ending, halike⟩, hreports⟩ := tokenize_newline h
  have hplaced : Nesting.Placed false .front 0
      (Nesting.kinds (tokenize false (text ++ "\n")).tokens) :=
    placed_tokenize (.inr (.inr (by simp [String.toList_append])))
  have hagrees : Agrees (EndsInKey text) ending (reading text) (reading (text ++ "\n")) :=
    agrees_fileMembers 0 halike id fun _ => hplaced
  obtain ⟨hroot, hlowered⟩ := root_of_agrees hagrees
  exact ⟨hroot, hreports, hagrees.excused.append_right hlowered⟩

/-- The end of the block stands where the value is looked for. -/
theorem EndsInKey.syntaxErrors_ne_nil {text : String} (h : EndsInKey text) :
    (ofText text).syntaxErrors ≠ [] := by
  rw [syntaxErrors_ofText]
  exact List.append_ne_nil_of_left_ne_nil (errors_fileMembers_of_endsInKey _ 0 h) _

/-- Nothing is reported of a text if nothing is with a line end behind it, and the text does not
end in a key within a block. -/
theorem hasErrors_newline {text : String}
    (h : ∀ c ∈ text.toList.getLast?, Layout.isLineEnd c = false) :
    (ofText text).hasErrors = false ↔
      (ofText (text ++ "\n")).hasErrors = false ∧ ¬ EndsInKey text := by
  obtain ⟨-, hlex, hexcused⟩ := excused_newline h
  rw [hasErrors_eq_false_iff, hasErrors_eq_false_iff, hlex]
  constructor
  · rintro ⟨hlexNil, hnil⟩
    refine ⟨⟨hlexNil, ?_⟩, fun hkey => hkey.syntaxErrors_ne_nil hnil⟩
    rcases hexcused with hiff | ⟨-, hended, -⟩
    · exact hiff.mp hnil
    · exact hended
  · rintro ⟨⟨hlexNil, hended⟩, hkey⟩
    refine ⟨hlexNil, ?_⟩
    rcases hexcused with hiff | ⟨hexcuse, -, -⟩
    · exact hiff.mpr hended
    · exact absurd hexcuse hkey

/-- A line end that is missing at the end of a text changes nothing of its root element but
places, wherever in a block, list item, property or value the text ends.  It changes whether
something is reported if and only if the text ends in a key within a block and nothing is
reported with the line end; then all that is reported is that the value of the key is
missing. -/
theorem ofText_newline {text : String}
    (h : ∀ c ∈ text.toList.getLast?, Layout.isLineEnd c = false) :
    let plain := ofText text
    let ended := ofText (text ++ "\n")
    plain.root.map Element.unplaced = ended.root.map Element.unplaced ∧
      (plain.hasErrors = true ↔ ended.hasErrors = true ∨ EndsInKey text) ∧
      (plain.hasErrors = true → ended.hasErrors = false → plain.lexErrors = [] ∧
        plain.syntaxErrors.map SyntaxError.message = [missingValue]) := by
  obtain ⟨hroot, hlex, hexcused⟩ := excused_newline h
  refine ⟨hroot, ?_, fun hplain hended => ?_⟩
  · rw [← Bool.not_eq_false, ← Bool.not_eq_false, hasErrors_newline h, not_and_or, not_not]
  · obtain ⟨hlexNil, hnil⟩ := (hasErrors_eq_false_iff _).mp hended
    refine ⟨hlex.trans hlexNil, ?_⟩
    rcases hexcused with hiff | ⟨-, -, hmessage⟩
    · have hclean := (hasErrors_eq_false_iff _).mpr ⟨hlex.trans hlexNil, hiff.mpr hnil⟩
      cases hplain.symm.trans hclean
    · exact hmessage

/-- A text that ends within an inline list. -/
theorem ofText_newline_list :
    let text := "entity:\n  names: [b"
    (∀ c ∈ text.toList.getLast?, Layout.isLineEnd c = false) ∧
      (ofText text).root.map Element.unplaced =
        (ofText (text ++ "\n")).root.map Element.unplaced := by
  have h : ∀ c ∈ "entity:\n  names: [b".toList.getLast?, Layout.isLineEnd c = false := by
    simp [Layout.isLineEnd]
  exact ⟨h, (ofText_newline h).1⟩

/-- The value behind a key is missing at the end of a text only if its line end is, too: a block
that ends within a line is not expected there. -/
theorem newline_may_matter :
    let text := "entity:\n  id: A\n  name:"
    (∀ c ∈ text.toList.getLast?, Layout.isLineEnd c = false) ∧
      (ofText text).hasErrors = true ∧ (ofText (text ++ "\n")).hasErrors = false :=
  ⟨by simp [Layout.isLineEnd], by decide +kernel, by decide +kernel⟩

end Document
end ModelWorkspace
