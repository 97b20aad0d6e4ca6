import ModelWorkspace.Document.Basic
import ModelWorkspace.Proofs.Tree.Unclosed

/-!
# Documents of unfinished texts

A text that stops where a user is typing is read without the marks that end its blocks.  They
take no text, and what the grammar makes of them does not show in an outline; so the document
has the same root element, with every range where it was (`root_ofUnfinishedText`).  What is
reported may differ, since a mark may stand where something is asked for.
-/

namespace ModelWorkspace
namespace Document

open Grammar

/-- The tokens of a text, and the marks at its end that the unfinished text does without. -/
theorem closes_tokenize (text : String) :
    Closes (tokenize true text).tokens (tokenize false text).tokens := by
  have htokens : (tokenize false text).tokens = (tokenize true text).tokens ++
      List.replicate ((Layout.lines 0 IndentStack.fresh
        (Layout.splitLines text.toList)).2.size - 1)
        (Layout.mark .dedent (byteWidth text.toList)) := by
    unfold tokenize
    dsimp only
    rw [if_pos rfl, if_neg Bool.false_ne_true, List.append_nil]
  rw [htokens]
  refine closes_append _ fun t ht => ?_
  rw [List.eq_of_mem_replicate ht]
  exact ⟨rfl, rfl⟩

/-- To leave the blocks at the end of a text open neither adds nor loses anything of its root
element, wherever the text is cut off: the elements, their properties and references and all
their ranges are the same, and so are the reports on indentation. -/
theorem root_ofUnfinishedText (text : String) :
    (ofUnfinishedText text).root = (ofText text).root ∧
      (ofUnfinishedText text).lexErrors = (ofText text).lexErrors := by
  have houtline : Outline.ofTree (Parse.ofText true text).tree =
      Outline.ofTree (Parse.ofText false text).tree :=
    Outline.ofTree_congr (parallel_fileMembers 0 (closes_tokenize text)).trees
  exact ⟨congrArg (fun members => (Lowering.root members).1) houtline, rfl⟩

/-- The mark that ends the block stands where a value is asked for. -/
example :
    let text := "entity:\n  id: A\n  name:"
    (ofText text).hasErrors = true ∧ (ofUnfinishedText text).hasErrors = false :=
  ⟨by decide +kernel, by decide +kernel⟩

end Document
end ModelWorkspace
