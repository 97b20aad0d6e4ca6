import ModelWorkspace.Document.Transfer
import ModelWorkspace.Proofs.Element.Extent
import ModelWorkspace.Proofs.Json.Containers
import ModelWorkspace.Proofs.Name.Containment

/-!
# A document survives its transfer

What is written of a part of a document is read back as that part, wherever it stands: each
lemma here says so of one kind of part, and is put together from those of what it holds.
Elements are nested, and a reader goes down to a limited depth; the schema allows three levels
of elements below each other, and each takes four levels of containers (`reads_element`).

So a document whose positions are offsets, and whose elements are those of the schema, is read
back as it was (`Document.rehydrate_dehydrate`).  The document of a text is such a document.
-/

namespace ModelWorkspace
namespace Transfer

open Json

/-! ## Parts of a document -/

theorem maxOffset_le : maxOffset ≤ maxNatural := by
  decide

variable {depth : Nat}

theorem reads_string (s : String) : ReadsValue string (quote s).toList s :=
  reads_text s "a string"

theorem reads_elementKind (kind : ElementKind) (depth : Nat) :
    ReadsValue (elementKind depth) (quote kind.name).toList kind :=
  reads_variant (ElementKind.ofName?_name kind) depth _

theorem reads_tokenKind (kind : SyntaxKind) (depth : Nat) :
    ReadsValue (tokenKind depth) (quote kind.name).toList kind :=
  reads_variant (SyntaxKind.ofName?_name kind) depth _

theorem reads_range {r : TextRange} (h : r.Within maxOffset) (hdepth : 0 < depth) :
    ReadsValue (range depth) (rangeText r).toList r := by
  have hstart : r.start ≤ maxOffset := Nat.le_trans h.ordered h.bounded
  obtain ⟨hopens, hread⟩ := reads_pair hdepth (reads_natural hstart maxOffset_le "u32")
    (reads_natural h.bounded maxOffset_le "u32")
  refine ⟨hopens, hread.bind_nil ?_⟩
  dsimp only
  rw [if_pos h.ordered]
  exact Reads.pure r

theorem reads_token {t : TokenInfo} (h : t.range.Within maxOffset) (hdepth : 1 < depth) :
    ReadsValue (token depth) (tokenText t).toList t := by
  have hkind := (reads_tokenKind t.kind (depth - 1)).reads
  have hrange := (reads_range h (Nat.sub_pos_of_lt hdepth)).reads
  exact Record.reads_object (Nat.lt_of_succ_lt hdepth)
    (.entry _ rfl rfl (hkind.map _) (.entry _ rfl rfl (hrange.map _) (.done _))) rfl

theorem reads_report {range : TextRange} (name message : String)
    (h : range.Within maxOffset) (hdepth : 1 < depth) :
    ReadsValue (report name depth) (reportText message range).toList (message, range) := by
  have hmessage := (reads_string message).reads
  have hrange := (reads_range h (Nat.sub_pos_of_lt hdepth)).reads
  exact Record.reads_object (Nat.lt_of_succ_lt hdepth)
    (.entry _ rfl rfl (hmessage.map _) (.entry _ rfl rfl (hrange.map _) (.done _))) rfl

theorem reads_lexError {e : LexError} (h : e.range.Within maxOffset) (hdepth : 1 < depth) :
    ReadsValue (lexError depth) (reportText e.message e.range).toList e := by
  obtain ⟨hopens, hread⟩ := reads_report "LexError" e.message h hdepth
  exact ⟨hopens, hread.bind_nil (Reads.pure e)⟩

theorem reads_syntaxError {e : SyntaxError} (h : e.range.Within maxOffset)
    (hdepth : 1 < depth) :
    ReadsValue (syntaxError depth) (reportText e.message e.range).toList e := by
  obtain ⟨hopens, hread⟩ := reads_report "SyntaxError" e.message h hdepth
  exact ⟨hopens, hread.bind_nil (Reads.pure e)⟩

theorem reads_property (property : String × String) (hdepth : 0 < depth) :
    ReadsValue (Reader.pair depth string string) (propertyText property).toList property :=
  reads_pair hdepth (reads_string property.1) (reads_string property.2)

theorem reads_site {s : ReferenceSite} (hrange : s.range.Within maxOffset)
    (hindex : s.index ≤ maxNatural) (hdepth : 1 < depth) :
    ReadsValue (site depth) (siteText s).toList s := by
  have hproperty := (reads_string s.property).reads
  have hindex := (reads_natural hindex (Nat.le_refl _) "usize").reads
  have htext := (reads_string s.text).reads
  have hrange := (reads_range hrange (Nat.sub_pos_of_lt hdepth)).reads
  have htarget := (reads_elementKind s.target (depth - 1)).reads
  exact Record.reads_object (Nat.lt_of_succ_lt hdepth)
    (.entry _ rfl rfl (hproperty.map _) (.entry _ rfl rfl (hindex.map _)
      (.entry _ rfl rfl (htext.map _) (.entry _ rfl rfl (hrange.map _)
        (.entry _ rfl rfl (htarget.map _) (.done _)))))) rfl

/-! ## Elements -/

theorem containmentTexts_eq_map (cs : List (Containment Element)) :
    containmentTexts cs = cs.map containmentText := by
  induction cs with
  | nil => rfl
  | cons c cs ih => rw [containmentTexts, List.map_cons, ih]

theorem elementTexts_eq_map (es : List Element) : elementTexts es = es.map elementText := by
  induction es with
  | nil => rfl
  | cons e es ih => rw [elementTexts, List.map_cons, ih]

/-- A containment is read if its elements are. -/
theorem reads_containment {nested : Reader Element} {c : Containment Element}
    (h : ∀ e ∈ c.elements, ReadsValue nested (elementText e).toList e) (hdepth : 1 < depth) :
    ReadsValue (containment nested depth) (containmentText c).toList c := by
  obtain ⟨feature, elements⟩ := c
  have hfeature := (reads_string feature).reads
  have helements := (reads_array (Nat.sub_pos_of_lt hdepth) h).reads
  rw [containmentText, elementTexts_eq_map]
  exact Record.reads_object (Nat.lt_of_succ_lt hdepth)
    (.entry _ rfl rfl (hfeature.map _) (.entry _ rfl rfl (helements.map _) (.done _))) rfl

/-- An element is read if what is nested in it is. -/
theorem reads_elementWith {nested : Reader Element} {e : Element} (h : e.Within maxOffset)
    (hnested : ∀ c ∈ e.children, ∀ child ∈ c.elements,
      ReadsValue nested (elementText child).toList child) (hdepth : 3 < depth) :
    ReadsValue (elementWith nested depth) (elementText e).toList e := by
  obtain ⟨kind, id, idRange, range, properties, references, children⟩ := e
  obtain ⟨hwhole, hdeclared, hreferred, -⟩ := h
  have hkind := (reads_elementKind kind (depth - 1)).reads
  have hid : Reads Delimited (Reader.optional string) (optionText quote id).toList id :=
    reads_optional fun s _ => reads_string s
  have hinside : 0 < depth - 1 := by omega
  have hidRange : Reads Delimited (Reader.optional (Transfer.range (depth - 1)))
      (optionText rangeText idRange).toList idRange :=
    reads_optional fun r hr => reads_range (hdeclared r hr) hinside
  have hrange := (reads_range hwhole hinside).reads
  have hproperty : ∀ p ∈ properties, ReadsValue (Reader.pair (depth - 2) string string)
      (propertyText p).toList p := fun p _ => reads_property p (by omega)
  have hproperties := (reads_array hinside hproperty).reads
  have hreference : ∀ s ∈ references, ReadsValue (site (depth - 2)) (siteText s).toList s :=
    fun s hs => reads_site (hreferred s hs).1 (Nat.le_trans (hreferred s hs).2 maxOffset_le)
      (by omega)
  have hreferences := (reads_array hinside hreference).reads
  have hchild : ∀ c ∈ children, ReadsValue (containment nested (depth - 2))
      (containmentText c).toList c := fun c hc => reads_containment (hnested c hc) (by omega)
  have hchildren := (reads_array hinside hchild).reads
  rw [elementText, containmentTexts_eq_map]
  exact Record.reads_object (by omega)
    (.entry _ rfl rfl (hkind.map _) (.entry _ rfl rfl (hid.map _)
      (.entry _ rfl rfl (hidRange.map _) (.entry _ rfl rfl (hrange.map _)
        (.entry _ rfl rfl (hproperties.map _) (.entry _ rfl rfl (hreferences.map _)
          (.entry _ rfl rfl (hchildren.map _) (.done _)))))))) rfl

theorem level_le (kind : ElementKind) : kind.level ≤ 2 := by
  cases kind <;> decide

/-- An element is read if each of the levels of elements that the schema allows below it finds
its four levels of containers. -/
theorem reads_element {e : Element} (h : e.Within maxOffset) (htyped : e.IsTyped)
    (hdepth : 12 ≤ depth + 4 * e.kind.level) :
    ReadsValue (element depth) (elementText e).toList e := by
  induction e using Element.nested_induction generalizing depth with
  | step e ih =>
      have hlevel := level_le e.kind
      -- a level of elements takes an object, an array of containments, an object for each of
      -- these and an array of elements
      obtain ⟨depth, rfl⟩ : ∃ less, depth = less + 4 := ⟨depth - 4, by omega⟩
      refine reads_elementWith h (fun c hc child hchild => ?_) (by omega)
      obtain ⟨-, -, -, hwithin⟩ := h
      obtain ⟨-, hkinds, hnested⟩ := htyped
      obtain ⟨spec, hspec, hkind⟩ := hkinds c hc child hchild
      have hbelow := ElementKind.level_of_containment? hspec
      refine ih c hc child hchild (hwithin c hc child hchild) (hnested c hc child hchild) ?_
      rw [hkind, hbelow]
      omega

end Transfer

/-! ## Documents -/

open Transfer

/-- A document that can be handed over: its positions are offsets, and its elements are those
of the schema. -/
structure Document.IsPortable (d : Document) : Prop where
  tokens : ∀ t ∈ d.tokens, t.range.Within maxOffset
  root : ∀ e ∈ d.root, e.Within maxOffset ∧ e.IsTyped
  lexErrors : ∀ e ∈ d.lexErrors, e.range.Within maxOffset
  syntaxErrors : ∀ e ∈ d.syntaxErrors, e.range.Within maxOffset

theorem Transfer.reads_document {d : Document} (h : d.IsPortable) :
    Json.ReadsValue (document Json.maxDepth) d.dehydrate.toList d := by
  have htokens := (Json.reads_array (by decide : 0 < Json.maxDepth - 1) fun t ht =>
    reads_token (h.tokens t ht) (by decide : 1 < Json.maxDepth - 2)).reads
  have hroot : Json.Reads Json.Delimited (Json.Reader.optional (element (Json.maxDepth - 1)))
      (Json.optionText elementText d.root).toList d.root :=
    Json.reads_optional fun e he => reads_element (h.root e he).1 (h.root e he).2 (by
      rw [Json.maxDepth]
      omega)
  have hlexErrors := (Json.reads_array (by decide : 0 < Json.maxDepth - 1) fun e he =>
    reads_lexError (h.lexErrors e he) (by decide : 1 < Json.maxDepth - 2)).reads
  have hsyntaxErrors := (Json.reads_array (by decide : 0 < Json.maxDepth - 1) fun e he =>
    reads_syntaxError (h.syntaxErrors e he) (by decide : 1 < Json.maxDepth - 2)).reads
  exact Json.Record.reads_object (by decide)
    (.entry _ rfl rfl (htokens.map _) (.entry _ rfl rfl (hroot.map _)
      (.entry _ rfl rfl (hlexErrors.map _) (.entry _ rfl rfl (hsyntaxErrors.map _)
        (.done _))))) rfl

namespace Document

/-- A document that can be handed over is read back as it was. -/
theorem rehydrate_dehydrate {d : Document} (h : d.IsPortable) :
    rehydrate d.dehydrate = .ok d :=
  Json.read_eq_ok (reads_document h)

/-- The document of a text can be handed over if every place in the text is an offset. -/
theorem isPortable_ofText {text : String} (h : byteWidth text.toList ≤ maxOffset) :
    (ofText text).IsPortable := by
  obtain ⟨htokens, hroot, hlexErrors, hsyntaxErrors⟩ := within_ofText text
  exact {
    tokens := fun t ht => (htokens t ht).mono h
    root := fun e he => ⟨(hroot e he).mono h, (isLowered_root he).isTyped.2⟩
    lexErrors := fun e he => (hlexErrors e he).mono h
    syntaxErrors := fun e he => (hsyntaxErrors e he).mono h }

/-- The document of a text survives its transfer: whatever the text is, what is written of its
document is read back as the same document.  Offsets are numbers of 32 bits, so only a text
that is no wider than the largest of them has a document. -/
theorem rehydrate_dehydrate_ofText (text : String) (h : byteWidth text.toList ≤ maxOffset) :
    rehydrate (ofText text).dehydrate = .ok (ofText text) :=
  rehydrate_dehydrate (isPortable_ofText h)

/-- A relationship with a quoted name in which quotes, a backslash and letters beyond ASCII
stand, with references, an attribute, a line that goes back to a column that is not open, and
a line that is no member. -/
def transferredText : String :=
  "relationship:\n    id: \"Käufer \\\"A\\\" \\\\ ü\"\n    parent: shop.Customer\n" ++
    "    attributes:\n      - parent: name\n        child: id\n  ]\n"

theorem rehydrate_dehydrate_transferredText :
    byteWidth transferredText.toList ≤ maxOffset ∧
      (ofText transferredText).root.isSome = true ∧
      (ofText transferredText).lexErrors ≠ [] ∧ (ofText transferredText).syntaxErrors ≠ [] ∧
      rehydrate (ofText transferredText).dehydrate = .ok (ofText transferredText) :=
  ⟨by decide +kernel, by decide +kernel, by decide +kernel, by decide +kernel,
    rehydrate_dehydrate_ofText transferredText (by decide +kernel)⟩

end Document
end ModelWorkspace
